import Lox.Proofs.Syntax.Numbering
import Lox.Resolution
import Mathlib.Data.List.Perm.Subperm

/-!
# What a walk adds

A walk over a part of a program reads nothing of what was found before it but the open scopes. What it
finds is put in front of the distances, and behind the errors, that were there (`statement_behind`).
Each distance that it adds is the one of an occurrence in that part (`statement_adds`).
-/

namespace Lox.Resolution

/-! ## Behind an earlier walk -/

namespace Walk

/-- What a walk has found, behind what an earlier one had found. -/
def behind (walk earlier : Walk) : Walk :=
  ⟨walk.scopes, walk.distances ++ earlier.distances, earlier.errors ++ walk.errors⟩

variable (walk earlier : Walk)

@[simp] theorem scopes_behind : (walk.behind earlier).scopes = walk.scopes := rfl

@[simp] theorem report_behind (token : Token) (issue : ScopeIssue) :
    (walk.behind earlier).report token issue = (walk.report token issue).behind earlier := by
  simp [report, behind]

@[simp] theorem enter_behind (scope : Scope) :
    (walk.behind earlier).enter scope = (walk.enter scope).behind earlier := rfl

@[simp] theorem leave_behind : (walk.behind earlier).leave = walk.leave.behind earlier := rfl

@[simp] theorem declare_behind (name : Token) :
    (walk.behind earlier).declare name = (walk.declare name).behind earlier := by
  unfold declare
  rw [scopes_behind]
  cases walk.scopes with
  | nil => rfl
  | cons scope outer =>
    show (if _ then _ else _) = behind (if _ then _ else _) earlier
    split
    · exact report_behind walk earlier name .redeclared
    · rfl

@[simp] theorem define_behind (name : Token) :
    (walk.behind earlier).define name = (walk.define name).behind earlier := by
  unfold define
  rw [scopes_behind]
  cases walk.scopes <;> rfl

@[simp] theorem introduce_behind (name : Token) :
    (walk.behind earlier).introduce name = (walk.introduce name).behind earlier := by
  simp [introduce]

theorem introduces_behind (names : List Token) (walk : Walk) :
    names.foldl introduce (walk.behind earlier) = (names.foldl introduce walk).behind earlier := by
  induction names generalizing walk with
  | nil => rfl
  | cons name more ih => simp [ih]

@[simp] theorem bind_behind (id : OccurrenceId) (name : Token) :
    (walk.behind earlier).bind id name = (walk.bind id name).behind earlier := by
  simp only [bind, distance?, scopes_behind]
  split <;> rfl

@[simp] theorem read_behind (id : OccurrenceId) (name : Token) :
    (walk.behind earlier).read id name = (walk.read id name).behind earlier := by
  have initializing :
      (walk.behind earlier).isInitializing name.lexeme = walk.isInitializing name.lexeme := rfl
  simp only [read, initializing]
  split <;> simp

@[simp] theorem checkReturn_behind (context : Context) (keyword : Token) (hasValue : Bool) :
    (walk.behind earlier).checkReturn context keyword hasValue =
      (walk.checkReturn context keyword hasValue).behind earlier := by
  unfold checkReturn
  split
  · simp
  · split <;> simp
  all_goals rfl

end Walk

section

variable (earlier : Walk)

mutual

/-- A walk over an expression does not depend on what was found before it. -/
theorem expression_behind (insideClass : Bool) : ∀ (value : Expr) (walk : Walk),
    expression insideClass value (walk.behind earlier) =
      (expression insideClass value walk).behind earlier
  | .literal _, _ => rfl
  | .grouping inner, walk => expression_behind insideClass inner walk
  | .unary _ operand, walk => expression_behind insideClass operand walk
  | .binary left _ right, walk => by
    simp only [expression]
    rw [expression_behind insideClass left, expression_behind insideClass right]
  | .logical left _ right, walk => by
    simp only [expression]
    rw [expression_behind insideClass left, expression_behind insideClass right]
  | .var id name, walk => walk.read_behind earlier id name
  | .assign id name value, walk => by
    simp only [expression]
    rw [expression_behind insideClass value, Walk.bind_behind]
  | .call callee _ arguments, walk => by
    simp only [expression]
    rw [expression_behind insideClass callee, expressions_behind insideClass arguments]
  | .get object _, walk => expression_behind insideClass object walk
  | .set object _ value, walk => by
    simp only [expression]
    rw [expression_behind insideClass value, expression_behind insideClass object]
  | .this id keyword, walk => by
    simp only [expression]
    split <;> simp

theorem expressions_behind (insideClass : Bool) : ∀ (values : List Expr) (walk : Walk),
    expressions insideClass values (walk.behind earlier) =
      (expressions insideClass values walk).behind earlier
  | [], _ => rfl
  | first :: more, walk => by
    simp only [expressions]
    rw [expression_behind insideClass first, expressions_behind insideClass more]

end

theorem optional_behind (insideClass : Bool) (value : Option Expr) (walk : Walk) :
    optional insideClass value (walk.behind earlier) =
      (optional insideClass value walk).behind earlier := by
  cases value with
  | none => rfl
  | some value => exact expression_behind earlier insideClass value walk

mutual

/-- A walk over a statement does not depend on what was found before it. -/
theorem statement_behind : ∀ (context : Context) (t : Stmt) (walk : Walk),
    statement context t (walk.behind earlier) = (statement context t walk).behind earlier
  | context, .expression value, walk => expression_behind earlier context.insideClass value walk
  | context, .print value, walk => expression_behind earlier context.insideClass value walk
  | context, .varDecl name initializer, walk => by
    simp only [statement]
    rw [Walk.declare_behind, optional_behind, Walk.define_behind]
  | context, .block body, walk => by
    simp only [statement]
    rw [Walk.enter_behind, statements_behind context body, Walk.leave_behind]
  | context, .ifThen condition thenBranch, walk => by
    simp only [statement]
    rw [expression_behind, statement_behind context thenBranch]
  | context, .ifElse condition thenBranch elseBranch, walk => by
    simp only [statement]
    rw [expression_behind, statement_behind context thenBranch,
      statement_behind context elseBranch]
  | context, .whileLoop condition body, walk => by
    simp only [statement]
    rw [expression_behind, statement_behind context body]
  | context, .funDecl declaration, walk => by
    simp only [statement]
    rw [Walk.introduce_behind, function_behind _ declaration]
  | context, .returns keyword value, walk => by
    simp only [statement]
    rw [Walk.checkReturn_behind, optional_behind]
  | context, .classDecl name declarations, walk => by
    simp only [statement]
    rw [Walk.introduce_behind, Walk.enter_behind, methods_behind declarations, Walk.leave_behind]

theorem function_behind : ∀ (context : Context) (declaration : FunctionDecl) (walk : Walk),
    function context declaration (walk.behind earlier) =
      (function context declaration walk).behind earlier
  | context, ⟨_, params, body⟩, walk => by
    simp only [function]
    rw [Walk.enter_behind, Walk.introduces_behind, statements_behind context body,
      Walk.leave_behind]

theorem statements_behind : ∀ (context : Context) (body : List Stmt) (walk : Walk),
    statements context body (walk.behind earlier) = (statements context body walk).behind earlier
  | _, [], _ => rfl
  | context, first :: more, walk => by
    simp only [statements]
    rw [statement_behind context first, statements_behind context more]

theorem methods_behind : ∀ (declarations : List FunctionDecl) (walk : Walk),
    methods declarations (walk.behind earlier) = (methods declarations walk).behind earlier
  | [], _ => rfl
  | first :: more, walk => by
    simp only [methods]
    rw [function_behind _ first, methods_behind more]

end

end

/-! ## What is added -/

namespace Walk

/-- New distances are in front of the old ones, and each is that of an occurrence of its own. -/
def Adds (occurrences : List Occurrence) (walk walk' : Walk) : Prop :=
  ∃ new, walk'.distances = new ++ walk.distances ∧
    (new.map (·.1)).Subperm (occurrences.map (·.id))

variable {walk walk₁ walk₂ : Walk} {os os' : List Occurrence}

theorem Adds.of_eq (h : walk₁.distances = walk.distances) : walk.Adds os walk₁ :=
  ⟨[], h, List.nil_subperm⟩

theorem Adds.trans (h : walk.Adds os walk₁) (h' : walk₁.Adds os' walk₂) :
    walk.Adds (os ++ os') walk₂ := by
  obtain ⟨new, hnew, hids⟩ := h
  obtain ⟨new', hnew', hids'⟩ := h'
  refine ⟨new' ++ new, by rw [hnew', hnew, List.append_assoc], ?_⟩
  rw [List.map_append, List.map_append]
  exact (List.perm_append_comm.subperm).trans (hids.append hids')

theorem Adds.swap (h : walk.Adds (os ++ os') walk₁) : walk.Adds (os' ++ os) walk₁ := by
  obtain ⟨new, hnew, hids⟩ := h
  exact ⟨new, hnew, hids.trans (List.perm_append_comm.map _).subperm⟩

/-- What leaves the distances as they are may come first. -/
theorem Adds.behind_eq (h : walk₁.distances = walk.distances) (h' : walk₁.Adds os walk₂) :
    walk.Adds os walk₂ := by
  obtain ⟨new, hnew, hids⟩ := h'
  exact ⟨new, h ▸ hnew, hids⟩

/-- Each distance is old, or that of one of the occurrences. -/
theorem Adds.mem (h : walk.Adds os walk₁) {p : OccurrenceId × Nat} (hp : p ∈ walk₁.distances) :
    p ∈ walk.distances ∨ p.1 ∈ os.map (·.id) := by
  obtain ⟨new, hnew, hids⟩ := h
  rw [hnew, List.mem_append] at hp
  rcases hp with hp | hp
  · exact .inr (hids.subset (List.mem_map_of_mem hp))
  · exact .inl hp

@[simp] theorem distances_report (token : Token) (issue : ScopeIssue) :
    (walk.report token issue).distances = walk.distances := rfl

@[simp] theorem distances_declare (name : Token) :
    (walk.declare name).distances = walk.distances := by
  unfold declare
  split
  · rfl
  · split <;> rfl

@[simp] theorem distances_define (name : Token) :
    (walk.define name).distances = walk.distances := by
  unfold define
  split <;> rfl

@[simp] theorem distances_introduce (name : Token) :
    (walk.introduce name).distances = walk.distances := by
  simp [introduce]

theorem distances_introduces (names : List Token) (walk : Walk) :
    (names.foldl introduce walk).distances = walk.distances := by
  induction names generalizing walk with
  | nil => rfl
  | cons name more ih => simp [ih]

@[simp] theorem distances_checkReturn (context : Context) (keyword : Token) (hasValue : Bool) :
    (walk.checkReturn context keyword hasValue).distances = walk.distances := by
  unfold checkReturn
  split
  · rfl
  · split <;> rfl
  all_goals rfl

theorem bind_adds (role : Occurrence.Role) (id : OccurrenceId) (name : Token) :
    walk.Adds [⟨role, id, name⟩] (walk.bind id name) := by
  unfold bind
  split
  · exact .of_eq rfl
  · next d _ => exact ⟨[(id, d)], rfl, List.Subperm.refl _⟩

theorem read_adds (id : OccurrenceId) (name : Token) :
    walk.Adds [⟨.read, id, name⟩] (walk.read id name) := by
  simp only [read]
  split
  · exact .behind_eq (distances_report name .readInOwnInitializer) (bind_adds .read id name)
  · exact bind_adds .read id name

end Walk

mutual

/-- A walk over an expression adds distances of its occurrences. -/
theorem expression_adds (insideClass : Bool) : ∀ (value : Expr) (walk : Walk),
    walk.Adds value.occurrences (expression insideClass value walk)
  | .literal _, _ => .of_eq rfl
  | .grouping inner, walk => expression_adds insideClass inner walk
  | .unary _ operand, walk => expression_adds insideClass operand walk
  | .binary left _ right, walk =>
    (expression_adds insideClass left walk).trans (expression_adds insideClass right _)
  | .logical left _ right, walk =>
    (expression_adds insideClass left walk).trans (expression_adds insideClass right _)
  | .var id name, walk => walk.read_adds id name
  | .assign id name value, walk =>
    ((expression_adds insideClass value walk).trans (Walk.bind_adds .assigned id name)).swap
  | .call callee _ arguments, walk =>
    (expression_adds insideClass callee walk).trans (expressions_adds insideClass arguments _)
  | .get object _, walk => expression_adds insideClass object walk
  | .set object _ value, walk =>
    ((expression_adds insideClass value walk).trans (expression_adds insideClass object _)).swap
  | .this id keyword, walk => by
    show walk.Adds _ (if insideClass then _ else _)
    split
    · exact walk.bind_adds .receiver id keyword
    · exact .of_eq rfl

theorem expressions_adds (insideClass : Bool) : ∀ (values : List Expr) (walk : Walk),
    walk.Adds (Expr.occurrencesIn values) (expressions insideClass values walk)
  | [], _ => .of_eq rfl
  | first :: more, walk =>
    (expression_adds insideClass first walk).trans (expressions_adds insideClass more _)

end

theorem optional_adds (insideClass : Bool) (value : Option Expr) (walk : Walk) :
    walk.Adds (Expr.occurrencesOf value) (optional insideClass value walk) := by
  cases value with
  | none => exact .of_eq rfl
  | some value => exact expression_adds insideClass value walk

mutual

/-- A walk over a statement adds distances of its occurrences. -/
theorem statement_adds : ∀ (context : Context) (t : Stmt) (walk : Walk),
    walk.Adds t.occurrences (statement context t walk)
  | context, .expression value, walk => expression_adds context.insideClass value walk
  | context, .print value, walk => expression_adds context.insideClass value walk
  | context, .varDecl name initializer, walk => by
    rw [Stmt.occurrences_varDecl]
    obtain ⟨new, hnew, hids⟩ := optional_adds context.insideClass initializer (walk.declare name)
    refine ⟨new, ?_, hids⟩
    rw [statement, Walk.distances_define, hnew, Walk.distances_declare]
  | context, .block body, walk => statements_adds context body (walk.enter .empty)
  | context, .ifThen condition thenBranch, walk =>
    (expression_adds context.insideClass condition walk).trans
      (statement_adds context thenBranch _)
  | context, .ifElse condition thenBranch elseBranch, walk =>
    ((expression_adds context.insideClass condition walk).trans
      (statement_adds context thenBranch _)).trans (statement_adds context elseBranch _)
  | context, .whileLoop condition body, walk =>
    (expression_adds context.insideClass condition walk).trans (statement_adds context body _)
  | context, .funDecl declaration, walk =>
    .behind_eq (Walk.distances_introduce declaration.name)
      (function_adds { context with function := .function } declaration _)
  | context, .returns keyword value, walk => by
    rw [Stmt.occurrences_returns]
    exact .behind_eq (Walk.distances_checkReturn context keyword value.isSome)
      (optional_adds context.insideClass value _)
  | _, .classDecl name declarations, walk =>
    .behind_eq (Walk.distances_introduce name)
      (methods_adds declarations ((walk.introduce name).enter classScope))

theorem function_adds : ∀ (context : Context) (declaration : FunctionDecl) (walk : Walk),
    walk.Adds declaration.occurrences (function context declaration walk)
  | context, ⟨_, params, body⟩, walk =>
    .behind_eq (Walk.distances_introduces params (walk.enter .empty))
      (statements_adds context body _)

theorem statements_adds : ∀ (context : Context) (body : List Stmt) (walk : Walk),
    walk.Adds (Stmt.occurrencesIn body) (statements context body walk)
  | _, [], _ => .of_eq rfl
  | context, first :: more, walk =>
    (statement_adds context first walk).trans (statements_adds context more _)

theorem methods_adds : ∀ (declarations : List FunctionDecl) (walk : Walk),
    walk.Adds (FunctionDecl.occurrencesIn declarations) (methods declarations walk)
  | [], _ => .of_eq rfl
  | first :: more, walk => (function_adds _ first walk).trans (methods_adds more _)

end

end Lox.Resolution
