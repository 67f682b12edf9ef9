import Lox.Proofs.Resolution.Relabeling

/-!
# One program behind another

A walk closes every scope that it opens (`statements_depth`), so behind a program there is no scope
again, and what is walked over then is bound as if it stood alone (`resolveProgram_append`).
-/

namespace Lox.Resolution

namespace Walk

/-- How many scopes are open. -/
def depth (walk : Walk) : Nat := walk.scopes.length

variable (walk : Walk)

@[simp] theorem depth_report (token : Token) (issue : ScopeIssue) :
    (walk.report token issue).depth = walk.depth := rfl

@[simp] theorem depth_enter (scope : Scope) : (walk.enter scope).depth = walk.depth + 1 := rfl

@[simp] theorem depth_leave : walk.leave.depth = walk.depth - 1 := List.length_tail

@[simp] theorem depth_declare (name : Token) : (walk.declare name).depth = walk.depth := by
  unfold declare
  split
  · rfl
  · next h =>
    split
    · rfl
    · simp [depth, h]

@[simp] theorem depth_define (name : Token) : (walk.define name).depth = walk.depth := by
  unfold define
  split
  · rfl
  · next h => simp [depth, h]

@[simp] theorem depth_introduce (name : Token) : (walk.introduce name).depth = walk.depth := by
  simp [introduce]

theorem depth_introduces (names : List Token) (walk : Walk) :
    (names.foldl introduce walk).depth = walk.depth := by
  induction names generalizing walk with
  | nil => rfl
  | cons name more ih => simp [ih]

@[simp] theorem depth_bind (id : OccurrenceId) (name : Token) :
    (walk.bind id name).depth = walk.depth := by
  unfold bind
  split <;> rfl

@[simp] theorem depth_read (id : OccurrenceId) (name : Token) :
    (walk.read id name).depth = walk.depth := by
  simp only [read]
  split <;> simp

@[simp] theorem depth_checkReturn (context : Context) (keyword : Token) (hasValue : Bool) :
    (walk.checkReturn context keyword hasValue).depth = walk.depth := by
  unfold checkReturn
  split
  · rfl
  · split <;> rfl
  all_goals rfl

/-- Outside of all scopes, a walk goes on as if it started. -/
theorem start_behind {walk : Walk} (h : walk.scopes = []) : start.behind walk = walk := by
  obtain ⟨scopes, distances, errors⟩ := walk
  subst h
  exact congrArg (Walk.mk [] distances) (List.append_nil errors)

end Walk

mutual

@[simp] theorem expression_depth (insideClass : Bool) : ∀ (value : Expr) (walk : Walk),
    (expression insideClass value walk).depth = walk.depth
  | .literal _, _ => rfl
  | .grouping inner, walk => expression_depth insideClass inner walk
  | .unary _ operand, walk => expression_depth insideClass operand walk
  | .binary left _ right, walk | .logical left _ right, walk => by
    rw [expression, expression_depth insideClass right, expression_depth insideClass left]
  | .var id name, walk => walk.depth_read id name
  | .assign id name value, walk => by
    rw [expression, Walk.depth_bind, expression_depth insideClass value]
  | .call callee _ arguments, walk => by
    rw [expression, expressions_depth insideClass arguments, expression_depth insideClass callee]
  | .get object _, walk => expression_depth insideClass object walk
  | .set object _ value, walk => by
    rw [expression, expression_depth insideClass object, expression_depth insideClass value]
  | .this id keyword, walk => by
    rw [expression]
    split
    · exact walk.depth_bind id keyword
    · rfl

@[simp] theorem expressions_depth (insideClass : Bool) : ∀ (values : List Expr) (walk : Walk),
    (expressions insideClass values walk).depth = walk.depth
  | [], _ => rfl
  | first :: more, walk => by
    rw [expressions, expressions_depth insideClass more, expression_depth insideClass first]

end

@[simp] theorem optional_depth (insideClass : Bool) (value : Option Expr) (walk : Walk) :
    (optional insideClass value walk).depth = walk.depth := by
  cases value with
  | none => rfl
  | some value => exact expression_depth insideClass value walk

mutual

@[simp] theorem statement_depth : ∀ (context : Context) (t : Stmt) (walk : Walk),
    (statement context t walk).depth = walk.depth
  | context, .expression value, walk => expression_depth context.insideClass value walk
  | context, .print value, walk => expression_depth context.insideClass value walk
  | context, .varDecl name initializer, walk => by simp [statement]
  | context, .block body, walk => by
    rw [statement, Walk.depth_leave, statements_depth context body, Walk.depth_enter,
      Nat.add_sub_cancel]
  | context, .ifThen condition thenBranch, walk => by
    rw [statement, statement_depth context thenBranch, expression_depth]
  | context, .ifElse condition thenBranch elseBranch, walk => by
    rw [statement, statement_depth context elseBranch, statement_depth context thenBranch,
      expression_depth]
  | context, .whileLoop condition body, walk => by
    rw [statement, statement_depth context body, expression_depth]
  | context, .funDecl declaration, walk => by
    rw [statement, function_depth _ declaration, Walk.depth_introduce]
  | context, .returns keyword value, walk => by simp [statement]
  | context, .classDecl name declarations, walk => by
    rw [statement, Walk.depth_leave, methods_depth declarations, Walk.depth_enter,
      Walk.depth_introduce, Nat.add_sub_cancel]

@[simp] theorem function_depth : ∀ (context : Context) (declaration : FunctionDecl) (walk : Walk),
    (function context declaration walk).depth = walk.depth
  | context, ⟨_, params, body⟩, walk => by
    rw [function, Walk.depth_leave, statements_depth context body, Walk.depth_introduces,
      Walk.depth_enter, Nat.add_sub_cancel]

/-- A walk over statements closes every scope that it opens. -/
@[simp] theorem statements_depth : ∀ (context : Context) (body : List Stmt) (walk : Walk),
    (statements context body walk).depth = walk.depth
  | _, [], _ => rfl
  | context, first :: more, walk => by
    rw [statements, statements_depth context more, statement_depth context first]

@[simp] theorem methods_depth : ∀ (declarations : List FunctionDecl) (walk : Walk),
    (methods declarations walk).depth = walk.depth
  | [], _ => rfl
  | first :: more, walk => by rw [methods, methods_depth more, function_depth _ first]

end

theorem statements_append (context : Context) (body more : List Stmt) (walk : Walk) :
    statements context (body ++ more) walk =
      statements context more (statements context body walk) := by
  induction body generalizing walk with
  | nil => rfl
  | cons first body ih =>
    rw [List.cons_append, statements, statements]
    exact ih _

/-- Two programs that can be resolved can be together, each with its own distances. -/
theorem resolveProgram_append {program more : List Stmt} {distances distances' : Distances}
    (h : resolveProgram program = .ok distances) (h' : resolveProgram more = .ok distances') :
    resolveProgram (program ++ more) = .ok (distances' ++ distances) := by
  obtain ⟨clean, rfl⟩ := resolveProgram_eq_ok.mp h
  obtain ⟨clean', rfl⟩ := resolveProgram_eq_ok.mp h'
  have outside : (statements .outermost program .start).scopes = [] :=
    List.eq_nil_of_length_eq_zero (statements_depth .outermost program .start)
  have behind := statements_behind (statements .outermost program .start) .outermost more .start
  rw [Walk.start_behind outside] at behind
  rw [resolveProgram_eq_ok, statements_append, behind, Walk.behind, clean, clean']
  exact ⟨rfl, rfl⟩

end Lox.Resolution
