import Lox.Proofs.Resolution.Walk
import Lox.Proofs.Syntax.Relabeling

/-!
# Walks over trees with other identities and lines

Scopes are made of names, so a walk over a relabeled tree goes the same way. Its distances are those of
the other identities, and its errors lie at tokens on the other lines (`statements_relabel`).
-/

namespace Lox.Resolution

namespace Walk

/-- What a walk has found, with other identities and lines. -/
def relabel (r : Relabeling) (walk : Walk) : Walk where
  scopes := walk.scopes
  distances := walk.distances.map fun (id, d) => (r.id id, d)
  errors := walk.errors.map fun error => { error with token := r.token error.token }

variable (r : Relabeling) (walk : Walk)

@[simp] theorem scopes_relabel : (walk.relabel r).scopes = walk.scopes := rfl

@[simp] theorem report_relabel (token : Token) (issue : ScopeIssue) :
    (walk.relabel r).report (r.token token) issue = (walk.report token issue).relabel r := by
  simp [report, relabel]

@[simp] theorem enter_relabel (scope : Scope) :
    (walk.relabel r).enter scope = (walk.enter scope).relabel r := rfl

@[simp] theorem leave_relabel : (walk.relabel r).leave = walk.leave.relabel r := rfl

@[simp] theorem declare_relabel (name : Token) :
    (walk.relabel r).declare (r.token name) = (walk.declare name).relabel r := by
  unfold declare
  rw [scopes_relabel]
  cases walk.scopes with
  | nil => rfl
  | cons scope outer =>
    show (if _ then _ else _) = relabel r (if _ then _ else _)
    rw [Relabeling.lexeme_token]
    split
    · exact report_relabel r walk name .redeclared
    · rfl

@[simp] theorem define_relabel (name : Token) :
    (walk.relabel r).define (r.token name) = (walk.define name).relabel r := by
  unfold define
  rw [scopes_relabel]
  cases walk.scopes <;> rfl

@[simp] theorem introduce_relabel (name : Token) :
    (walk.relabel r).introduce (r.token name) = (walk.introduce name).relabel r := by
  simp [introduce]

theorem introduces_relabel (names : List Token) (walk : Walk) :
    (names.map r.token).foldl introduce (walk.relabel r) =
      (names.foldl introduce walk).relabel r := by
  induction names generalizing walk with
  | nil => rfl
  | cons name more ih => simp [ih]

@[simp] theorem bind_relabel (id : OccurrenceId) (name : Token) :
    (walk.relabel r).bind (r.id id) (r.token name) = (walk.bind id name).relabel r := by
  simp only [bind, distance?, scopes_relabel, Relabeling.lexeme_token]
  split <;> rfl

@[simp] theorem read_relabel (id : OccurrenceId) (name : Token) :
    (walk.relabel r).read (r.id id) (r.token name) = (walk.read id name).relabel r := by
  have initializing : (walk.relabel r).isInitializing (r.token name).lexeme =
      walk.isInitializing name.lexeme := rfl
  simp only [read, initializing]
  split <;> simp

@[simp] theorem checkReturn_relabel (context : Context) (keyword : Token) (hasValue : Bool) :
    (walk.relabel r).checkReturn context (r.token keyword) hasValue =
      (walk.checkReturn context keyword hasValue).relabel r := by
  unfold checkReturn
  split
  · simp
  · split <;> simp
  all_goals rfl

end Walk

section

variable (r : Relabeling)

mutual

/-- A walk over a relabeled expression goes the same way. -/
theorem expression_relabel (insideClass : Bool) : ∀ (value : Expr) (walk : Walk),
    expression insideClass (value.relabel r) (walk.relabel r) =
      (expression insideClass value walk).relabel r
  | .literal _, _ => rfl
  | .grouping inner, walk => expression_relabel insideClass inner walk
  | .unary _ operand, walk => expression_relabel insideClass operand walk
  | .binary left _ right, walk | .logical left _ right, walk => by
    simp only [Expr.relabel, expression]
    rw [expression_relabel insideClass left, expression_relabel insideClass right]
  | .var id name, walk => walk.read_relabel r id name
  | .assign id name value, walk => by
    simp only [Expr.relabel, expression]
    rw [expression_relabel insideClass value, Walk.bind_relabel]
  | .call callee _ arguments, walk => by
    simp only [Expr.relabel, expression]
    rw [expression_relabel insideClass callee, expressions_relabel insideClass arguments]
  | .get object _, walk => expression_relabel insideClass object walk
  | .set object _ value, walk => by
    simp only [Expr.relabel, expression]
    rw [expression_relabel insideClass value, expression_relabel insideClass object]
  | .this id keyword, walk => by
    simp only [Expr.relabel, expression]
    split <;> simp

theorem expressions_relabel (insideClass : Bool) : ∀ (values : List Expr) (walk : Walk),
    expressions insideClass (Expr.relabelAll r values) (walk.relabel r) =
      (expressions insideClass values walk).relabel r
  | [], _ => rfl
  | first :: more, walk => by
    simp only [Expr.relabelAll, expressions]
    rw [expression_relabel insideClass first, expressions_relabel insideClass more]

end

theorem optional_relabel (insideClass : Bool) (value : Option Expr) (walk : Walk) :
    optional insideClass (value.map (Expr.relabel r)) (walk.relabel r) =
      (optional insideClass value walk).relabel r := by
  cases value with
  | none => rfl
  | some value => exact expression_relabel r insideClass value walk

mutual

/-- A walk over a relabeled statement goes the same way. -/
theorem statement_relabel : ∀ (context : Context) (t : Stmt) (walk : Walk),
    statement context (t.relabel r) (walk.relabel r) = (statement context t walk).relabel r
  | context, .expression value, walk => expression_relabel r context.insideClass value walk
  | context, .print value, walk => expression_relabel r context.insideClass value walk
  | context, .varDecl name initializer, walk => by
    simp only [Stmt.relabel, statement]
    rw [Walk.declare_relabel, optional_relabel, Walk.define_relabel]
  | context, .block body, walk => by
    simp only [Stmt.relabel, statement]
    rw [Walk.enter_relabel, statements_relabel context body, Walk.leave_relabel]
  | context, .ifThen condition thenBranch, walk => by
    simp only [Stmt.relabel, statement]
    rw [expression_relabel, statement_relabel context thenBranch]
  | context, .ifElse condition thenBranch elseBranch, walk => by
    simp only [Stmt.relabel, statement]
    rw [expression_relabel, statement_relabel context thenBranch,
      statement_relabel context elseBranch]
  | context, .whileLoop condition body, walk => by
    simp only [Stmt.relabel, statement]
    rw [expression_relabel, statement_relabel context body]
  | context, .funDecl declaration, walk => by
    have name : (declaration.relabel r).name = r.token declaration.name := by
      cases declaration
      rfl
    simp only [Stmt.relabel, statement, name]
    rw [Walk.introduce_relabel, function_relabel _ declaration]
  | context, .returns keyword value, walk => by
    simp only [Stmt.relabel, statement, Option.isSome_map]
    rw [Walk.checkReturn_relabel, optional_relabel]
  | context, .classDecl name declarations, walk => by
    simp only [Stmt.relabel, statement]
    rw [Walk.introduce_relabel, Walk.enter_relabel, methods_relabel declarations,
      Walk.leave_relabel]

theorem function_relabel : ∀ (context : Context) (declaration : FunctionDecl) (walk : Walk),
    function context (declaration.relabel r) (walk.relabel r) =
      (function context declaration walk).relabel r
  | context, ⟨_, params, body⟩, walk => by
    simp only [FunctionDecl.relabel, function]
    rw [Walk.enter_relabel, Walk.introduces_relabel, statements_relabel context body,
      Walk.leave_relabel]

theorem statements_relabel : ∀ (context : Context) (body : List Stmt) (walk : Walk),
    statements context (Stmt.relabelAll r body) (walk.relabel r) =
      (statements context body walk).relabel r
  | _, [], _ => rfl
  | context, first :: more, walk => by
    simp only [Stmt.relabelAll, statements]
    rw [statement_relabel context first, statements_relabel context more]

theorem methods_relabel : ∀ (declarations : List FunctionDecl) (walk : Walk),
    methods (FunctionDecl.relabelAll r declarations) (walk.relabel r) =
      (methods declarations walk).relabel r
  | [], _ => rfl
  | first :: more, walk => by
    have name : (first.relabel r).name = r.token first.name := by
      cases first
      rfl
    simp only [FunctionDecl.relabelAll, methods, name]
    rw [show methodContext (r.token first.name) = methodContext first.name from rfl,
      function_relabel _ first, methods_relabel more]

end

end

/-! ## Programs -/

section

variable {program : List Stmt} {distances : Distances}

theorem resolveProgram_eq_ok : resolveProgram program = .ok distances ↔
    (statements .outermost program .start).errors = [] ∧
      (statements .outermost program .start).distances = distances := by
  unfold resolveProgram Walk.result
  split
  · next h => simp [List.isEmpty_iff.mp h]
  · next h =>
    constructor
    · nofun
    · exact fun ⟨clean, _⟩ => absurd (List.isEmpty_iff.mpr clean) h

end

/-- What a walk has found, with other identities and lines. -/
def relabelFound (r : Relabeling) :
    Except (List ScopeError) Distances → Except (List ScopeError) Distances
  | .ok distances => .ok (distances.map fun (id, d) => (r.id id, d))
  | .error errors => .error (errors.map fun error => { error with token := r.token error.token })

theorem Walk.result_relabel (r : Relabeling) (walk : Walk) :
    (walk.relabel r).result = relabelFound r walk.result := by
  simp only [result, relabel, List.isEmpty_map]
  split <;> rfl

/-- A relabeled program is resolved to the distances of the other identities, or not at all. -/
theorem resolveProgram_relabel (r : Relabeling) (program : List Stmt) :
    resolveProgram (Stmt.relabelAll r program) = relabelFound r (resolveProgram program) := by
  unfold resolveProgram
  rw [← Walk.result_relabel, ← statements_relabel]
  rfl

theorem resolveExpression_relabel (r : Relabeling) (value : Expr) :
    resolveExpression (value.relabel r) = relabelFound r (resolveExpression value) := by
  unfold resolveExpression
  rw [← Walk.result_relabel, ← expression_relabel]
  rfl

end Lox.Resolution
