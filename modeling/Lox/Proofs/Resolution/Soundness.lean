import Lox.Proofs.Resolution.Bound

/-!
# A walk without errors binds everything

If a walk over a part of a program makes no error, and the record is what the walk has found, then the
part is bound in the scopes that the walk came with, and the walk goes on with the scopes behind it
(`statement_bound`). So all of a program that could be resolved is bound, outside of all scopes
(`bound_of_resolveProgram`).
-/

namespace Lox.Resolution

/-! ## What each walk covers -/

theorem expression_covers (insideClass : Bool) (value : Expr) :
    Covers value.occurrences (expression insideClass value) :=
  ⟨fun _ earlier => expression_behind earlier insideClass value _,
    expression_adds insideClass value⟩

theorem expressions_covers (insideClass : Bool) (values : List Expr) :
    Covers (Expr.occurrencesIn values) (expressions insideClass values) :=
  ⟨fun _ earlier => expressions_behind earlier insideClass values _,
    expressions_adds insideClass values⟩

theorem optional_covers (insideClass : Bool) (value : Option Expr) :
    Covers (Expr.occurrencesOf value) (optional insideClass value) :=
  ⟨fun _ earlier => optional_behind earlier insideClass value _, optional_adds insideClass value⟩

theorem statement_covers (context : Context) (t : Stmt) :
    Covers t.occurrences (statement context t) :=
  ⟨fun _ earlier => statement_behind earlier context t _, statement_adds context t⟩

theorem statements_covers (context : Context) (body : List Stmt) :
    Covers (Stmt.occurrencesIn body) (statements context body) :=
  ⟨fun _ earlier => statements_behind earlier context body _, statements_adds context body⟩

theorem function_covers (context : Context) (declaration : FunctionDecl) :
    Covers declaration.occurrences (function context declaration) :=
  ⟨fun _ earlier => function_behind earlier context declaration _,
    function_adds context declaration⟩

theorem methods_covers (declarations : List FunctionDecl) :
    Covers (FunctionDecl.occurrencesIn declarations) (methods declarations) :=
  ⟨fun _ earlier => methods_behind earlier declarations _, methods_adds declarations⟩

theorem bind_covers (role : Occurrence.Role) (id : OccurrenceId) (name : Token) :
    Covers [⟨role, id, name⟩] (·.bind id name) :=
  ⟨fun walk earlier => walk.bind_behind earlier id name, fun _ => Walk.bind_adds role id name⟩

theorem enter_covers (scope : Scope) : Covers [] (·.enter scope) :=
  ⟨fun walk earlier => walk.enter_behind earlier scope, fun _ => .of_eq rfl⟩

theorem leave_covers : Covers [] Walk.leave :=
  ⟨fun walk earlier => walk.leave_behind earlier, fun _ => .of_eq rfl⟩

theorem declare_covers (name : Token) : Covers [] (·.declare name) :=
  ⟨fun walk earlier => walk.declare_behind earlier name,
    fun _ => .of_eq (Walk.distances_declare name)⟩

theorem define_covers (name : Token) : Covers [] (·.define name) :=
  ⟨fun walk earlier => walk.define_behind earlier name,
    fun _ => .of_eq (Walk.distances_define name)⟩

theorem introduce_covers (name : Token) : Covers [] (·.introduce name) :=
  ⟨fun walk earlier => walk.introduce_behind earlier name,
    fun _ => .of_eq (Walk.distances_introduce name)⟩

theorem introduces_covers (names : List Token) : Covers [] (names.foldl Walk.introduce) :=
  ⟨fun walk earlier => Walk.introduces_behind earlier names walk,
    fun walk => .of_eq (Walk.distances_introduces names walk)⟩

theorem checkReturn_covers (context : Context) (keyword : Token) (hasValue : Bool) :
    Covers [] (·.checkReturn context keyword hasValue) :=
  ⟨fun walk earlier => walk.checkReturn_behind earlier context keyword hasValue,
    fun _ => .of_eq (Walk.distances_checkReturn context keyword hasValue)⟩

/-! ## The scopes behind each walk -/

@[simp] theorem Walk.scopes_bind (walk : Walk) (id : OccurrenceId) (name : Token) :
    (walk.bind id name).scopes = walk.scopes := by
  unfold Walk.bind
  split <;> rfl

@[simp] theorem Walk.scopes_checkReturn (walk : Walk) (context : Context) (keyword : Token)
    (hasValue : Bool) : (walk.checkReturn context keyword hasValue).scopes = walk.scopes := by
  unfold Walk.checkReturn
  split
  · rfl
  · split <;> rfl
  all_goals rfl

theorem Walk.scopes_define (walk : Walk) (name : Token) :
    (walk.define name).scopes = defining name.lexeme walk.scopes := by
  unfold Walk.define
  split
  · next h => rw [h]; rfl
  · next h => rw [h]; rfl

theorem Walk.scopes_declare {walk : Walk} {name : Token} (h : (walk.declare name).errors = []) :
    (walk.declare name).scopes = declaring name.lexeme walk.scopes := by
  unfold Walk.declare at h ⊢
  split
  · next hscopes => rw [hscopes]; rfl
  · next scope outer hscopes =>
    rw [hscopes] at h ⊢
    split
    · next hcontains => simp [hcontains, Walk.report] at h
    · rfl

theorem Walk.scopes_introduce {walk : Walk} {name : Token}
    (h : (walk.introduce name).errors = []) :
    (walk.introduce name).scopes = introducing walk.scopes name := by
  rw [Walk.introduce, Walk.scopes_define, Walk.scopes_declare ((define_covers name).clean h)]
  rfl

theorem Walk.scopes_introduces {names : List Token} {walk : Walk}
    (h : (names.foldl Walk.introduce walk).errors = []) :
    (names.foldl Walk.introduce walk).scopes = names.foldl introducing walk.scopes := by
  induction names generalizing walk with
  | nil => rfl
  | cons name more ih =>
    rw [List.foldl_cons] at h ⊢
    rw [ih h, Walk.scopes_introduce ((introduces_covers more).clean h)]
    rfl

mutual

/-- An expression opens no scope. -/
@[simp] theorem expression_scopes (insideClass : Bool) : ∀ (value : Expr) (walk : Walk),
    (expression insideClass value walk).scopes = walk.scopes
  | .literal _, _ => rfl
  | .grouping inner, walk => expression_scopes insideClass inner walk
  | .unary _ operand, walk => expression_scopes insideClass operand walk
  | .binary left _ right, walk => by
    rw [expression, expression_scopes insideClass right, expression_scopes insideClass left]
  | .logical left _ right, walk => by
    rw [expression, expression_scopes insideClass right, expression_scopes insideClass left]
  | .var id name, walk => by
    rw [expression, Walk.read]
    split <;> exact Walk.scopes_bind _ id name
  | .assign id name value, walk => by
    rw [expression, Walk.scopes_bind, expression_scopes insideClass value]
  | .call callee _ arguments, walk => by
    rw [expression, expressions_scopes insideClass arguments,
      expression_scopes insideClass callee]
  | .get object _, walk => expression_scopes insideClass object walk
  | .set object _ value, walk => by
    rw [expression, expression_scopes insideClass object, expression_scopes insideClass value]
  | .this id keyword, walk => by
    rw [expression]
    split
    · exact Walk.scopes_bind walk id keyword
    · rfl

@[simp] theorem expressions_scopes (insideClass : Bool) : ∀ (values : List Expr) (walk : Walk),
    (expressions insideClass values walk).scopes = walk.scopes
  | [], _ => rfl
  | first :: more, walk => by
    rw [expressions, expressions_scopes insideClass more, expression_scopes insideClass first]

end

@[simp] theorem optional_scopes (insideClass : Bool) (value : Option Expr) (walk : Walk) :
    (optional insideClass value walk).scopes = walk.scopes := by
  cases value with
  | none => rfl
  | some value => exact expression_scopes insideClass value walk

/-! ## Expressions -/

/-- A name that is not waiting for its initializer is defined where it is found. -/
theorem Steady.ready {scopes : List Scope} (h : Steady scopes) {name : String}
    (hname : ∀ scope ∈ scopes.head?, scope.find? name ≠ some false) {d : Nat}
    (hd : scopes.findIdx? (·.contains name) = some d) :
    ∃ scope, scopes[d]? = some scope ∧ scope.find? name = some true := by
  obtain ⟨hlt, hcontains, -⟩ := List.findIdx?_eq_some_iff_getElem.mp hd
  refine ⟨scopes[d], List.getElem?_eq_getElem hlt, ?_⟩
  have defined : scopes[d].find? name ≠ some false := by
    cases scopes with
    | nil => exact absurd hlt (Nat.not_lt_zero d)
    | cons scope outer =>
      cases d with
      | zero => exact hname scope rfl
      | succ d => exact h.outer _ (List.getElem_mem _) name
  rw [Bindings.contains, Option.isSome_iff_exists] at hcontains
  obtain ⟨ready, hready⟩ := hcontains
  cases ready with
  | false => exact absurd hready defined
  | true => exact hready

variable {record : Record}

/-- What is recorded of an occurrence is the distance that it was bound with. -/
theorem Kept.recorded {o : Occurrence} {walk : Walk}
    (h : Kept record [o] walk (walk.bind o.id o.token)) :
    record.distance? o.id = walk.distance? o.token.lexeme := by
  have ho : o ∈ [o] := List.mem_singleton_self o
  apply Option.ext
  intro d
  rw [h.found o ho d, Walk.bind]
  cases walk.distance? o.token.lexeme with
  | none => simp [h.fresh o ho d]
  | some d' => simp [h.fresh o ho d, eq_comm]

theorem Kept.bound {o : Occurrence} {walk : Walk} (hsteady : Steady walk.scopes)
    (hready : o.role ≠ .assigned →
      ∀ scope ∈ walk.scopes.head?, scope.find? o.token.lexeme ≠ some false)
    (h : Kept record [o] walk (walk.bind o.id o.token)) : o.Bound record walk.scopes where
  numbered := h.numbered o (List.mem_singleton_self o)
  recorded := h.recorded
  ready := fun hrole _ hd => hsteady.ready (hready hrole) (h.recorded.symm.trans hd)
  spelled := h.spelled o (List.mem_singleton_self o)

theorem read_bound {id : OccurrenceId} {name : Token} {walk : Walk} (hsteady : Steady walk.scopes)
    (h : Kept record [⟨.read, id, name⟩] walk (walk.read id name)) :
    Occurrence.Bound record walk.scopes ⟨.read, id, name⟩ := by
  have reads : walk.isInitializing name.lexeme = false ∧
      walk.read id name = walk.bind id name := by
    unfold Walk.read at h ⊢
    cases hinit : walk.isInitializing name.lexeme with
    | false => exact ⟨rfl, rfl⟩
    | true =>
      simp only [hinit, if_true] at h
      have clean := (bind_covers .read id name).clean h.clean
      simp [Walk.report] at clean
  rw [reads.2] at h
  refine h.bound hsteady fun _ scope hscope hpending => ?_
  have initializing := reads.1
  unfold Walk.isInitializing at initializing
  split at initializing
  · next hscopes => simp [hscopes] at hscope
  · next hscopes =>
    rw [hscopes, List.head?_cons, Option.mem_some_iff] at hscope
    rw [hscope, hpending] at initializing
    cases initializing

mutual

/-- Everything in an expression is bound in the scopes around it. -/
theorem expression_bound (insideClass : Bool) {scopes : List Scope} (hsteady : Steady scopes) :
    ∀ (value : Expr) {walk : Walk}, walk.scopes = scopes →
      Kept record value.occurrences walk (expression insideClass value walk) →
      value.Bound record scopes
  | .literal _, _, _, _ => fun _ ho => absurd ho List.not_mem_nil
  | .grouping inner, _, hscopes, h => expression_bound insideClass hsteady inner hscopes h
  | .unary _ operand, _, hscopes, h => expression_bound insideClass hsteady operand hscopes h
  | .binary left _ right, _, hscopes, h => by
    have hleft := h.first (expression_covers insideClass right)
    have hright := h.second (expression_covers insideClass left)
    exact List.forall_mem_append.mpr
      ⟨expression_bound insideClass hsteady left hscopes hleft,
        expression_bound insideClass hsteady right (by rwa [expression_scopes]) hright⟩
  | .logical left _ right, _, hscopes, h => by
    have hleft := h.first (expression_covers insideClass right)
    have hright := h.second (expression_covers insideClass left)
    exact List.forall_mem_append.mpr
      ⟨expression_bound insideClass hsteady left hscopes hleft,
        expression_bound insideClass hsteady right (by rwa [expression_scopes]) hright⟩
  | .var id name, _, hscopes, h => by
    subst hscopes
    exact List.forall_mem_singleton.mpr (read_bound hsteady h)
  | .assign id name value, walk, hscopes, h => by
    have h := h.perm (List.perm_append_singleton _ _).symm
    have hvalue := h.first (bind_covers .assigned id name)
    have hname := h.second (expression_covers insideClass value)
    have hbehind : (expression insideClass value walk).scopes = scopes := by
      rwa [expression_scopes]
    refine List.forall_mem_cons.mpr ⟨?_, expression_bound insideClass hsteady value hscopes hvalue⟩
    subst hbehind
    exact Kept.bound hsteady (fun hrole => absurd rfl hrole) hname
  | .call callee _ arguments, _, hscopes, h => by
    have hcallee := h.first (expressions_covers insideClass arguments)
    have harguments := h.second (expression_covers insideClass callee)
    exact List.forall_mem_append.mpr
      ⟨expression_bound insideClass hsteady callee hscopes hcallee,
        expressions_bound insideClass hsteady arguments (by rwa [expression_scopes]) harguments⟩
  | .get object _, _, hscopes, h => expression_bound insideClass hsteady object hscopes h
  | .set object _ value, _, hscopes, h => by
    -- the walk takes the value first
    have h := h.perm List.perm_append_comm
    have hvalue := h.first (expression_covers insideClass object)
    have hobject := h.second (expression_covers insideClass value)
    exact List.forall_mem_append.mpr
      ⟨expression_bound insideClass hsteady object (by rwa [expression_scopes]) hobject,
        expression_bound insideClass hsteady value hscopes hvalue⟩
  | .this id keyword, walk, hscopes, h => by
    subst hscopes
    cases insideClass with
    | false =>
      have clean : walk.errors ++ [⟨keyword, .thisOutsideClass⟩] = [] := h.clean
      simp at clean
    | true =>
      refine List.forall_mem_singleton.mpr (Kept.bound hsteady (fun _ => ?_) h)
      rw [(h.spelled _ (List.mem_singleton_self _)).mp rfl]
      exact hsteady.receiver

theorem expressions_bound (insideClass : Bool) {scopes : List Scope} (hsteady : Steady scopes) :
    ∀ (values : List Expr) {walk : Walk}, walk.scopes = scopes →
      Kept record (Expr.occurrencesIn values) walk (expressions insideClass values walk) →
      ∀ o ∈ Expr.occurrencesIn values, o.Bound record scopes
  | [], _, _, _ => fun _ ho => absurd ho List.not_mem_nil
  | first :: more, _, hscopes, h => by
    have hfirst := h.first (expressions_covers insideClass more)
    have hmore := h.second (expression_covers insideClass first)
    exact List.forall_mem_append.mpr
      ⟨expression_bound insideClass hsteady first hscopes hfirst,
        expressions_bound insideClass hsteady more (by rwa [expression_scopes]) hmore⟩

end

theorem optional_bound (insideClass : Bool) {scopes : List Scope} (hsteady : Steady scopes)
    (value : Option Expr) {walk : Walk} (hscopes : walk.scopes = scopes)
    (h : Kept record (Expr.occurrencesOf value) walk (optional insideClass value walk)) :
    Expr.BoundIfAny record scopes value := by
  cases value with
  | none => exact fun _ ho => absurd ho List.not_mem_nil
  | some value => exact expression_bound insideClass hsteady value hscopes h

/-! ## Statements -/

theorem Settled.after {scopes : List Scope} (h : Settled scopes) (t : Stmt) :
    Settled (t.after scopes) := by
  unfold Stmt.after
  cases t.declared? with
  | none => exact h
  | some name => exact h.introducing name

/-- The scope of a class is settled from the start. -/
theorem Settled.receiver {scopes : List Scope} (h : Settled scopes) :
    Settled (classScope :: scopes) := by
  refine h.cons fun name => ?_
  rw [classScope, Bindings.find?_insert]
  split
  · nofun
  · rw [Bindings.find?_empty]
    nofun

theorem tail_introducing (scopes : List Scope) (name : Token) :
    (introducing scopes name).tail = scopes.tail := by
  cases scopes <;> rfl

theorem tail_parameters (params : List Token) (scopes : List Scope) :
    (params.foldl introducing scopes).tail = scopes.tail := by
  induction params generalizing scopes with
  | nil => rfl
  | cons param more ih => rw [List.foldl_cons, ih, tail_introducing]

/-- Statements change the innermost scope only. -/
theorem tail_after (body : List Stmt) (scopes : List Scope) :
    (body.foldl Stmt.after scopes).tail = scopes.tail := by
  induction body generalizing scopes with
  | nil => rfl
  | cons first more ih =>
    rw [List.foldl_cons, ih, Stmt.after]
    cases first.declared? with
    | none => rfl
    | some name => exact tail_introducing scopes name

mutual

/-- Everything in a statement is bound in the scopes around it, and those behind it are as they should
be. -/
theorem statement_bound : ∀ (context : Context) (t : Stmt) {walk : Walk} {scopes : List Scope},
    walk.scopes = scopes → Settled scopes → t.WellNamed →
    Kept record t.occurrences walk (statement context t walk) →
    t.Bound record scopes ∧ (statement context t walk).scopes = t.after scopes
  | context, .expression value, _, _, hscopes, hsettled, _, h =>
    ⟨expression_bound _ hsettled.steady value hscopes h,
      (expression_scopes _ value _).trans hscopes⟩
  | context, .print value, _, _, hscopes, hsettled, _, h =>
    ⟨expression_bound _ hsettled.steady value hscopes h,
      (expression_scopes _ value _).trans hscopes⟩
  | context, .varDecl name initializer, walk, scopes, hscopes, hsettled, hnamed, h => by
    rw [Stmt.occurrences_varDecl] at h
    -- the initializer is walked over between the declaration and the definition
    have hvalue := (h.before (define_covers name)).after (declare_covers name)
    have clean := (optional_covers context.insideClass initializer).clean hvalue.clean
    have hdeclared : (walk.declare name).scopes = declaring name.lexeme scopes := by
      rw [Walk.scopes_declare clean, hscopes]
    refine ⟨⟨hnamed, optional_bound _ (hsettled.declaring hnamed) initializer hdeclared hvalue⟩, ?_⟩
    rw [statement, Walk.scopes_define, optional_scopes, hdeclared]
    rfl
  | context, .block body, walk, scopes, hscopes, hsettled, hnamed, h => by
    have hbody := (h.before leave_covers).after (enter_covers .empty)
    have hinside : (walk.enter .empty).scopes = .empty :: scopes := by rw [← hscopes]; rfl
    obtain ⟨bound, behind⟩ := statements_bound context body hinside
      (hsettled.cons fun _ => by simp) hnamed hbody
    refine ⟨bound, ?_⟩
    show (statements context body _).scopes.tail = scopes
    rw [behind, tail_after]
    rfl
  | context, .ifThen condition thenBranch, walk, scopes, hscopes, hsettled, hnamed, h => by
    have hcondition := h.first (statement_covers context thenBranch)
    have hthen := h.second (expression_covers context.insideClass condition)
    obtain ⟨bound, behind⟩ := statement_bound context thenBranch
      (by rwa [expression_scopes]) hsettled hnamed.2 hthen
    refine ⟨⟨expression_bound _ hsettled.steady condition hscopes hcondition, hnamed.1, bound⟩, ?_⟩
    rw [statement, behind, Stmt.after, hnamed.1]
    rfl
  | context, .ifElse condition thenBranch elseBranch, walk, scopes, hscopes, hsettled, hnamed,
      h => by
    have hboth := h.first (statement_covers context elseBranch)
    have hcondition := hboth.first (statement_covers context thenBranch)
    have hthen := hboth.second (expression_covers context.insideClass condition)
    rw [Stmt.occurrences, List.append_assoc] at h
    have helse := (h.second (expression_covers context.insideClass condition)).second
      (statement_covers context thenBranch)
    obtain ⟨boundThen, behindThen⟩ := statement_bound context thenBranch
      (by rwa [expression_scopes]) hsettled hnamed.1.2 hthen
    -- a branch declares nothing, so the second one is walked over in the same scopes
    rw [Stmt.after, hnamed.1.1] at behindThen
    obtain ⟨boundElse, behindElse⟩ := statement_bound context elseBranch behindThen hsettled
      hnamed.2.2 helse
    refine ⟨⟨expression_bound _ hsettled.steady condition hscopes hcondition,
      ⟨hnamed.1.1, boundThen⟩, hnamed.2.1, boundElse⟩, ?_⟩
    rw [statement, behindElse, Stmt.after, hnamed.2.1]
    rfl
  | context, .whileLoop condition body, walk, scopes, hscopes, hsettled, hnamed, h => by
    have hcondition := h.first (statement_covers context body)
    have hbody := h.second (expression_covers context.insideClass condition)
    obtain ⟨bound, behind⟩ := statement_bound context body
      (by rwa [expression_scopes]) hsettled hnamed.2 hbody
    refine ⟨⟨expression_bound _ hsettled.steady condition hscopes hcondition, hnamed.1, bound⟩, ?_⟩
    rw [statement, behind, Stmt.after, hnamed.1]
    rfl
  | context, .funDecl declaration, walk, scopes, hscopes, hsettled, hnamed, h => by
    have hbody := h.after (introduce_covers declaration.name)
    have clean := (function_covers _ declaration).clean hbody.clean
    have hinside : (walk.introduce declaration.name).scopes =
        introducing scopes declaration.name := by
      rw [Walk.scopes_introduce clean, hscopes]
    obtain ⟨bound, behind⟩ := function_bound _ declaration hinside
      (hsettled.introducing _) hnamed.2 hbody
    exact ⟨⟨hnamed.1, bound⟩, behind⟩
  | context, .returns keyword value, walk, scopes, hscopes, hsettled, _, h => by
    rw [Stmt.occurrences_returns] at h
    have hvalue := h.after (checkReturn_covers context keyword value.isSome)
    have hchecked : (walk.checkReturn context keyword value.isSome).scopes = scopes := by
      rwa [Walk.scopes_checkReturn]
    exact ⟨optional_bound _ hsettled.steady value hchecked hvalue,
      (optional_scopes _ value _).trans hchecked⟩
  | context, .classDecl name declarations, walk, scopes, hscopes, hsettled, hnamed, h => by
    have hmethods :=
      ((h.before leave_covers).after (introduce_covers name)).after (enter_covers classScope)
    have clean := (enter_covers classScope).clean ((methods_covers declarations).clean hmethods.clean)
    have hinside : ((walk.introduce name).enter classScope).scopes =
        classScope :: introducing scopes name := by
      rw [Walk.enter, Walk.scopes_introduce clean, hscopes]
    obtain ⟨bound, behind⟩ := methods_bound declarations hinside
      (hsettled.introducing name).receiver hnamed.2 hmethods
    refine ⟨⟨hnamed.1, bound⟩, ?_⟩
    show (methods declarations _).scopes.tail = _
    rw [behind]
    rfl

theorem function_bound : ∀ (context : Context) (declaration : FunctionDecl) {walk : Walk}
    {scopes : List Scope}, walk.scopes = scopes → Settled scopes → declaration.WellNamed →
    Kept record declaration.occurrences walk (function context declaration walk) →
    declaration.Bound record scopes ∧ (function context declaration walk).scopes = scopes
  | context, ⟨_, params, body⟩, walk, scopes, hscopes, hsettled, hnamed, h => by
    have hbody :=
      ((h.before leave_covers).after (enter_covers .empty)).after (introduces_covers params)
    have clean := (statements_covers context body).clean hbody.clean
    have hinside : (params.foldl Walk.introduce (walk.enter .empty)).scopes =
        params.foldl introducing (.empty :: scopes) := by
      rw [Walk.scopes_introduces clean, Walk.enter, hscopes]
    obtain ⟨bound, behind⟩ := statements_bound context body hinside
      ((hsettled.cons fun _ => by simp).parameters params) hnamed.2 hbody
    refine ⟨⟨hnamed.1, bound⟩, ?_⟩
    show (statements context body _).scopes.tail = scopes
    rw [behind, tail_after, tail_parameters]
    rfl

theorem statements_bound : ∀ (context : Context) (body : List Stmt) {walk : Walk}
    {scopes : List Scope}, walk.scopes = scopes → Settled scopes → Stmt.WellNamedAll body →
    Kept record (Stmt.occurrencesIn body) walk (statements context body walk) →
    Stmt.BoundAll record scopes body ∧
      (statements context body walk).scopes = body.foldl Stmt.after scopes
  | _, [], _, _, hscopes, _, _, _ => ⟨trivial, hscopes⟩
  | context, first :: more, walk, scopes, hscopes, hsettled, hnamed, h => by
    have hfirst := h.first (statements_covers context more)
    have hmore := h.second (statement_covers context first)
    obtain ⟨bound, behind⟩ := statement_bound context first hscopes hsettled hnamed.1 hfirst
    obtain ⟨boundAll, behindAll⟩ :=
      statements_bound context more behind (hsettled.after first) hnamed.2 hmore
    exact ⟨⟨bound, boundAll⟩, behindAll⟩

theorem methods_bound : ∀ (declarations : List FunctionDecl) {walk : Walk} {scopes : List Scope},
    walk.scopes = scopes → Settled scopes → FunctionDecl.WellNamedAll declarations →
    Kept record (FunctionDecl.occurrencesIn declarations) walk (methods declarations walk) →
    FunctionDecl.BoundAll record scopes declarations ∧
      (methods declarations walk).scopes = scopes
  | [], _, _, hscopes, _, _, _ => ⟨trivial, hscopes⟩
  | first :: more, walk, scopes, hscopes, hsettled, hnamed, h => by
    have hfirst := h.first (methods_covers more)
    have hmore := h.second (function_covers ⟨methodContext first.name, true⟩ first)
    obtain ⟨bound, behind⟩ := function_bound _ first hscopes hsettled hnamed.1 hfirst
    obtain ⟨boundAll, behindAll⟩ := methods_bound more behind hsettled hnamed.2 hmore
    exact ⟨⟨bound, boundAll⟩, behindAll⟩

end

/-! ## Units -/

/-- The record has what was found of these occurrences, which differ among each other. -/
structure Recorded (record : Record) (os : List Occurrence) (distances : Distances) : Prop where
  nodup : (os.map (·.id)).Nodup
  found : ∀ o ∈ os, ∀ d, record.distance? o.id = some d ↔ (o.id, d) ∈ distances
  numbered : ∀ o ∈ os, o.id < record.nextId
  spelled : ∀ o ∈ os, o.role = .receiver ↔ o.token.lexeme = receiverName

theorem Recorded.kept {os : List Occurrence} {walk : Walk} {distances : Distances}
    (h : Recorded record os distances) (hwalk : walk.result = .ok distances) :
    Kept record os .start walk := by
  unfold Walk.result at hwalk
  split at hwalk
  · next hclean =>
    injection hwalk with hwalk
    subst hwalk
    exact ⟨List.isEmpty_iff.mp hclean, h.nodup, fun _ _ _ => List.not_mem_nil, h.found, h.numbered,
      h.spelled⟩
  · nomatch hwalk

theorem settled_start : Settled Walk.start.scopes := fun _ h => absurd h List.not_mem_nil

/-- A program that could be resolved is bound. -/
theorem bound_of_resolveProgram {program : List Stmt} {distances : Distances}
    (h : resolveProgram program = .ok distances) (hnamed : Stmt.WellNamedAll program)
    (hrecord : Recorded record (Stmt.occurrencesIn program) distances) :
    Stmt.BoundAll record [] program :=
  (statements_bound .outermost program rfl settled_start hnamed (hrecord.kept h)).1

/-- An expression that could be resolved is bound. -/
theorem bound_of_resolveExpression {value : Expr} {distances : Distances}
    (h : resolveExpression value = .ok distances)
    (hrecord : Recorded record value.occurrences distances) : value.Bound record [] :=
  expression_bound false settled_start.steady value rfl (hrecord.kept h)

end Lox.Resolution
