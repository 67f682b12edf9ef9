import Lox.Proofs.Resolution.Soundness

/-!
# Names that are declared once

Where a walk makes no error, no scope gets a name twice: neither do two of the statements that share a
scope declare the same name, nor does one of them declare a parameter again (`statement_distinct`).
-/

namespace Lox

/-- The two statements do not declare the same name. -/
def Stmt.Apart (t t' : Stmt) : Prop :=
  ∀ name ∈ t.declared?, ∀ name' ∈ t'.declared?, name.lexeme ≠ name'.lexeme

instance : Std.Symm Stmt.Apart :=
  ⟨fun _ _ h name hname name' hname' => (h name' hname' name hname).symm⟩

mutual

/-- In each scope, a name is declared by one statement. -/
def Stmt.Distinct : Stmt → Prop
  | .expression _ | .print _ | .varDecl _ _ | .returns _ _ => True
  | .block body => body.Pairwise Stmt.Apart ∧ Stmt.DistinctAll body
  | .ifThen _ thenBranch => thenBranch.Distinct
  | .ifElse _ thenBranch elseBranch => thenBranch.Distinct ∧ elseBranch.Distinct
  | .whileLoop _ body => body.Distinct
  | .funDecl declaration => declaration.Distinct
  | .classDecl _ methods => FunctionDecl.DistinctAll methods

def FunctionDecl.Distinct : FunctionDecl → Prop
  | ⟨_, params, body⟩ =>
    (∀ param ∈ params, ∀ t ∈ body, ∀ name ∈ t.declared?, name.lexeme ≠ param.lexeme) ∧
      body.Pairwise Stmt.Apart ∧ Stmt.DistinctAll body

def Stmt.DistinctAll : List Stmt → Prop
  | [] => True
  | first :: more => first.Distinct ∧ Stmt.DistinctAll more

def FunctionDecl.DistinctAll : List FunctionDecl → Prop
  | [] => True
  | first :: more => first.Distinct ∧ FunctionDecl.DistinctAll more

end

namespace Resolution

/-! ## Names of the innermost scope -/

/-- The innermost scope, if there is one, does not have the name. -/
def Lacks (scopes : List Scope) (name : String) : Prop :=
  ∀ scope ∈ scopes.head?, scope.contains name = false

/-- A name that is introduced stands beside those that were there. -/
theorem Lacks.of_introducing {scopes : List Scope} {name : Token} {other : String}
    (h : Lacks (introducing scopes name) other) :
    Lacks scopes other ∧ (scopes ≠ [] → other ≠ name.lexeme) := by
  cases scopes with
  | nil => exact ⟨nofun, fun hscopes => absurd rfl hscopes⟩
  | cons scope outer =>
    have absent := h _ rfl
    by_cases hother : name.lexeme = other
    · simp [Bindings.contains, hother] at absent
    · refine ⟨?_, fun _ => Ne.symm hother⟩
      rintro _ ⟨⟩
      simpa [Bindings.contains, Bindings.find?_insert, hother] using absent

theorem introducing_ne_nil {scopes : List Scope} (h : scopes ≠ []) (name : Token) :
    introducing scopes name ≠ [] := by
  cases scopes with
  | nil => exact absurd rfl h
  | cons scope outer => exact List.cons_ne_nil _ _

theorem parameters_ne_nil {scopes : List Scope} (h : scopes ≠ []) (params : List Token) :
    params.foldl introducing scopes ≠ [] := by
  induction params generalizing scopes with
  | nil => exact h
  | cons param more ih => exact ih (introducing_ne_nil h param)

theorem after_ne_nil {scopes : List Scope} (h : scopes ≠ []) (t : Stmt) : t.after scopes ≠ [] := by
  unfold Stmt.after
  cases t.declared? with
  | none => exact h
  | some name => exact introducing_ne_nil h name

theorem Lacks.of_parameters {params : List Token} {scopes : List Scope} {other : String}
    (h : Lacks (params.foldl introducing scopes) other) :
    Lacks scopes other ∧ (scopes ≠ [] → ∀ param ∈ params, other ≠ param.lexeme) := by
  induction params generalizing scopes with
  | nil => exact ⟨h, fun _ => List.forall_mem_nil _⟩
  | cons param more ih =>
    obtain ⟨lacks, hmore⟩ := ih h
    obtain ⟨lacks, hparam⟩ := lacks.of_introducing
    refine ⟨lacks, fun hscopes => List.forall_mem_cons.mpr ⟨hparam hscopes, ?_⟩⟩
    exact hmore (introducing_ne_nil hscopes param)

theorem Lacks.of_after {scopes : List Scope} {t : Stmt} {other : String}
    (h : Lacks (t.after scopes) other) :
    Lacks scopes other ∧ (scopes ≠ [] → ∀ name ∈ t.declared?, other ≠ name.lexeme) := by
  unfold Stmt.after at h
  cases hname : t.declared? with
  | none =>
    rw [hname] at h
    exact ⟨h, fun _ => nofun⟩
  | some name =>
    rw [hname] at h
    refine ⟨h.of_introducing.1, fun hscopes => ?_⟩
    rintro _ ⟨⟩
    exact h.of_introducing.2 hscopes

theorem lacks_of_declare {walk : Walk} {name : Token} (h : (walk.declare name).errors = []) :
    Lacks walk.scopes name.lexeme := by
  rintro scope hscope
  unfold Walk.declare at h
  split at h
  · next hscopes => simp [hscopes] at hscope
  · next outer hscopes =>
    obtain rfl : _ = scope := by simpa [hscopes] using hscope
    split at h
    · simp [Walk.report] at h
    · next hcontains => exact Bool.eq_false_iff.mpr hcontains

theorem lacks_of_introduce {walk : Walk} {name : Token} (h : (walk.introduce name).errors = []) :
    Lacks walk.scopes name.lexeme :=
  lacks_of_declare ((define_covers name).clean h)

/-- What a statement declares was not there before. -/
theorem statement_lacks {context : Context} {t : Stmt} {walk : Walk}
    (h : (statement context t walk).errors = []) :
    ∀ name ∈ t.declared?, Lacks walk.scopes name.lexeme := by
  intro name hname
  cases t with
  | varDecl _ value =>
    obtain rfl := Option.some.inj hname
    have declared := (define_covers _).clean h
    exact lacks_of_declare ((optional_covers _ value).clean declared)
  | funDecl f =>
    obtain rfl := Option.some.inj hname
    exact lacks_of_introduce ((function_covers _ f).clean h)
  | classDecl _ methods =>
    obtain rfl := Option.some.inj hname
    have inside := (methods_covers methods).clean (leave_covers.clean h)
    exact lacks_of_introduce ((enter_covers classScope).clean inside)
  | _ => nomatch hname

/-! ## Statements -/

mutual

/-- Where a walk makes no error, names are declared once, and the scopes behind a statement are as they
should be. -/
theorem statement_distinct : ∀ (context : Context) (t : Stmt) {walk : Walk}, t.WellNamed →
    (statement context t walk).errors = [] →
    t.Distinct ∧ (statement context t walk).scopes = t.after walk.scopes
  | _, .expression value, walk, _, _ => ⟨trivial, expression_scopes _ value walk⟩
  | _, .print value, walk, _, _ => ⟨trivial, expression_scopes _ value walk⟩
  | context, .varDecl name value, walk, _, h => by
    have declared := (optional_covers context.insideClass value).clean ((define_covers name).clean h)
    refine ⟨trivial, ?_⟩
    rw [statement, Walk.scopes_define, optional_scopes, Walk.scopes_declare declared]
    rfl
  | context, .block body, walk, hnamed, h => by
    have inside := leave_covers.clean h
    obtain ⟨distinct, apart, -, behind⟩ := statements_distinct context body hnamed inside
    refine ⟨⟨apart (List.cons_ne_nil _ _), distinct⟩, ?_⟩
    show (statements context body _).scopes.tail = walk.scopes
    rw [behind, tail_after]
    rfl
  | context, .ifThen condition thenBranch, walk, hnamed, h => by
    obtain ⟨distinct, behind⟩ := statement_distinct context thenBranch hnamed.2 h
    refine ⟨distinct, ?_⟩
    rw [statement, behind, expression_scopes, Stmt.after, hnamed.1]
    rfl
  | context, .ifElse condition thenBranch elseBranch, walk, hnamed, h => by
    have between := (statement_covers context elseBranch).clean h
    obtain ⟨distinctThen, behindThen⟩ := statement_distinct context thenBranch hnamed.1.2 between
    obtain ⟨distinctElse, behindElse⟩ := statement_distinct context elseBranch hnamed.2.2 h
    refine ⟨⟨distinctThen, distinctElse⟩, ?_⟩
    rw [statement, behindElse, behindThen, expression_scopes, Stmt.after, Stmt.after, hnamed.1.1,
      hnamed.2.1]
    rfl
  | context, .whileLoop condition body, walk, hnamed, h => by
    obtain ⟨distinct, behind⟩ := statement_distinct context body hnamed.2 h
    refine ⟨distinct, ?_⟩
    rw [statement, behind, expression_scopes, Stmt.after, hnamed.1]
    rfl
  | _, .funDecl declaration, walk, hnamed, h => by
    obtain ⟨distinct, behind⟩ := function_distinct _ declaration hnamed.2 h
    have introduced := (function_covers _ declaration).clean h
    exact ⟨distinct, behind.trans (Walk.scopes_introduce introduced)⟩
  | context, .returns keyword value, walk, _, _ => by
    refine ⟨trivial, ?_⟩
    rw [statement, optional_scopes, Walk.scopes_checkReturn]
    rfl
  | _, .classDecl name methods, walk, hnamed, h => by
    have inside := leave_covers.clean h
    obtain ⟨distinct, behind⟩ := methods_distinct methods hnamed.2 inside
    have introduced := (enter_covers classScope).clean ((methods_covers methods).clean inside)
    refine ⟨distinct, ?_⟩
    show (Resolution.methods methods _).scopes.tail = _
    rw [behind]
    exact Walk.scopes_introduce introduced

theorem function_distinct : ∀ (context : Context) (f : FunctionDecl) {walk : Walk}, f.WellNamed →
    (function context f walk).errors = [] →
    f.Distinct ∧ (function context f walk).scopes = walk.scopes
  | context, ⟨_, params, body⟩, walk, hnamed, h => by
    have inside := leave_covers.clean h
    have introduced := (statements_covers context body).clean inside
    have scopes := Walk.scopes_introduces introduced
    obtain ⟨distinct, apart, lacks, behind⟩ := statements_distinct context body hnamed.2 inside
    have opened : (walk.enter .empty).scopes ≠ [] := List.cons_ne_nil _ _
    rw [scopes] at lacks apart
    refine ⟨⟨?_, apart (parameters_ne_nil opened params), distinct⟩, ?_⟩
    · intro param hparam t ht name hname
      exact (lacks t ht name hname).of_parameters.2 opened param hparam
    · show (statements context body _).scopes.tail = walk.scopes
      rw [behind, tail_after, scopes, tail_parameters]
      rfl

theorem statements_distinct : ∀ (context : Context) (body : List Stmt) {walk : Walk},
    Stmt.WellNamedAll body → (statements context body walk).errors = [] →
    Stmt.DistinctAll body ∧ (walk.scopes ≠ [] → body.Pairwise Stmt.Apart) ∧
      (∀ t ∈ body, ∀ name ∈ t.declared?, Lacks walk.scopes name.lexeme) ∧
      (statements context body walk).scopes = body.foldl Stmt.after walk.scopes
  | _, [], _, _, _ => ⟨trivial, fun _ => .nil, List.forall_mem_nil _, rfl⟩
  | context, first :: more, walk, hnamed, h => by
    have hfirst := (statements_covers context more).clean h
    obtain ⟨distinct, behind⟩ := statement_distinct context first hnamed.1 hfirst
    obtain ⟨distinctAll, apart, lacks, behindAll⟩ := statements_distinct context more hnamed.2 h
    rw [behind] at apart lacks behindAll
    refine ⟨⟨distinct, distinctAll⟩, fun hscopes => .cons ?_ (apart (after_ne_nil hscopes first)),
      List.forall_mem_cons.mpr ⟨statement_lacks hfirst, ?_⟩, behindAll⟩
    · intro t ht name hname name' hname'
      exact ((lacks t ht name' hname').of_after.2 hscopes name hname).symm
    · exact fun t ht name hname => (lacks t ht name hname).of_after.1

theorem methods_distinct : ∀ (fs : List FunctionDecl) {walk : Walk},
    FunctionDecl.WellNamedAll fs → (methods fs walk).errors = [] →
    FunctionDecl.DistinctAll fs ∧ (methods fs walk).scopes = walk.scopes
  | [], _, _, _ => ⟨trivial, rfl⟩
  | first :: more, walk, hnamed, h => by
    have hfirst := (methods_covers more).clean h
    obtain ⟨distinct, behind⟩ := function_distinct _ first hnamed.1 hfirst
    obtain ⟨distinctAll, behindAll⟩ := methods_distinct more hnamed.2 h
    exact ⟨⟨distinct, distinctAll⟩, behindAll.trans behind⟩

end

end Lox.Resolution
