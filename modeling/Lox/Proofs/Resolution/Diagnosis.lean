import Lox.Proofs.Resolution.Denotation
import Lox.Proofs.Resolution.Joining
import Lox.Proofs.Resolution.Offences

/-!
# The errors of a walk

A walk that stands behind the marks in front of a part of a program has the kinds, the names and the
initializers of those marks (`Stands`). From there it *reports* the marks of the part: it notes one
error for each of them that offends, and it stands behind them in the end (`Reports`). So the errors of a
program are those of its marks, and behind the program the walk stands where it stood at the start
(`diagnostics_exact`).
-/

namespace Lox.Resolution

/-! ## The context of a scope -/

/-- The context inside of open scopes. -/
def contextOf : List ScopeKind → Context
  | [] => .outermost
  | .block :: outer => contextOf outer
  | .function :: outer => { contextOf outer with function := .function }
  | .method name :: outer => { contextOf outer with function := methodContext name }
  | .cls :: outer => { contextOf outer with insideClass := true }

theorem insideClass_contextOf (kinds : List ScopeKind) :
    (contextOf kinds).insideClass = true ↔ .cls ∈ kinds := by
  induction kinds with
  | nil => simp [contextOf, Context.outermost]
  | cons kind outer ih => cases kind <;> simp [contextOf, ih]

/-- What the innermost function around a place makes of a `return`. -/
theorem function_contextOf (kinds : List ScopeKind) : (contextOf kinds).function =
    match kinds.find? ScopeKind.isFunction with
    | some (.method name) => methodContext name
    | some _ => .function
    | none => .outside := by
  induction kinds with
  | nil => rfl
  | cons kind outer ih =>
    cases kind with
    | block => exact ih
    | function => rfl
    | method name => rfl
    | cls => exact ih

/-! ## Where a walk stands -/

/-- The scopes around a place, and the variable in whose initializer it is. -/
structure Place where
  kinds : List ScopeKind
  pending : Option Token

/-- The walk has the scopes that are open behind the marks; a name that it holds for declared and not
defined is one in whose initializer that place is, and this can only be the pending variable. -/
structure Stands (place : Place) (before : List Mark) (walk : Walk) : Prop where
  kinds : openKinds before = place.kinds
  names : Names walk.scopes (openNames (Mark.landmarksOf before) [])
  outer : Settled walk.scopes.tail
  initializing : ∀ name, walk.isInitializing name = true ↔ InOwnInitializer before name
  pending : ∀ name, InOwnInitializer before name → ∃ token ∈ place.pending, token.lexeme = name
  declared : ∀ token ∈ place.pending,
    ∀ names ∈ (openNames (Mark.landmarksOf before) []).head?, token.lexeme ∈ names

namespace Stands

variable {place : Place} {kinds : List ScopeKind} {before : List Mark} {m : Mark} {walk walk' : Walk}

theorem start : Stands ⟨[], none⟩ [] .start where
  kinds := rfl
  names := .nil
  outer := fun _ h => nomatch h
  initializing := by simp [Walk.isInitializing, Walk.start, InOwnInitializer]
  pending := by simp [InOwnInitializer]
  declared := fun _ h => nomatch h

/-- Outside of initializers, all names are defined. -/
theorem settled (h : Stands ⟨kinds, none⟩ before walk) : Settled walk.scopes := by
  cases hscopes : walk.scopes with
  | nil => exact fun _ hscope => nomatch hscope
  | cons scope outer =>
    refine .cons (by simpa [hscopes] using h.outer) fun name hname => ?_
    have initializing : walk.isInitializing name = true := by
      simp [Walk.isInitializing, hscopes, hname]
    obtain ⟨token, htoken, -⟩ := h.pending name ((h.initializing name).mp initializing)
    nomatch htoken

/-- A mark behind which all names are defined. -/
theorem of_settled (hkinds : Mark.apply (openKinds before) m = kinds)
    (hnames : Names walk.scopes (openNames m.landmarks (openNames (Mark.landmarksOf before) [])))
    (hsettled : Settled walk.scopes) (hm : ∀ name, ¬InOwnInitializer (before ++ [m]) name) :
    Stands ⟨kinds, none⟩ (before ++ [m]) walk where
  kinds := by rw [openKinds_append_singleton, hkinds]
  names := by rwa [Mark.landmarksOf_append_singleton, openNames_append]
  outer scope hscope := hsettled scope (List.mem_of_mem_tail hscope)
  initializing name := by
    refine iff_of_false (fun h => ?_) (hm name)
    unfold Walk.isInitializing at h
    split at h
    · nomatch h
    · next scope outer hscopes =>
      exact hsettled scope (by simp [hscopes]) name (by simpa using h)
  pending name h := absurd h (hm name)
  declared _ h := nomatch h

/-- Of the walk, only the scopes matter. -/
theorem of_scopes (h : Stands place before walk) (hscopes : walk'.scopes = walk.scopes) :
    Stands place before walk' where
  kinds := h.kinds
  names := by
    rw [hscopes]
    exact h.names
  outer := by
    rw [hscopes]
    exact h.outer
  initializing name := by
    rw [← h.initializing, Walk.isInitializing, Walk.isInitializing, hscopes]
  pending := h.pending
  declared := h.declared

/-- A mark in an expression changes nothing. -/
theorem use (hm : m.IsUse) (h : Stands place before walk) : Stands place (before ++ [m]) walk := by
  have nothing : m.landmarks = [] ∧ Mark.apply (openKinds before) m = openKinds before ∧
      ∀ token, m ≠ .declares token := by
    cases m <;> simp_all [Mark.IsUse, Mark.landmarks, Mark.apply]
  obtain ⟨hlandmarks, hkinds, hdeclares⟩ := nothing
  have landmarks : Mark.landmarksOf (before ++ [m]) = Mark.landmarksOf before := by
    rw [Mark.landmarksOf_append_singleton, hlandmarks, List.append_nil]
  have same : ∀ name, InOwnInitializer (before ++ [m]) name ↔ InOwnInitializer before name := by
    intro name
    simp [inOwnInitializer_append_singleton, hdeclares, hm]
  constructor
  · rw [openKinds_append_singleton, hkinds, h.kinds]
  · rw [landmarks]
    exact h.names
  · exact h.outer
  · intro name
    rw [same]
    exact h.initializing name
  · intro name hname
    exact h.pending name ((same name).mp hname)
  · rw [landmarks]
    exact h.declared

/-- Behind a declaration, the name is the pending one. It waits for its initializer if it is new. -/
theorem declares {name : Token} (h : Stands ⟨kinds, none⟩ before walk)
    (hnames : Names walk'.scopes
      (openNames [.declares name.lexeme] (openNames (Mark.landmarksOf before) [])))
    (houter : Settled walk'.scopes.tail)
    (hinit : ∀ other, walk'.isInitializing other = true ↔
      name.lexeme = other ∧ NewHere before other) :
    Stands ⟨kinds, some name⟩ (before ++ [.declares name]) walk' := by
  have initializing : ∀ other, InOwnInitializer (before ++ [.declares name]) other ↔
      name.lexeme = other ∧ NewHere before other := by
    intro other
    simp [inOwnInitializer_append_singleton, Mark.IsUse]
  constructor
  · rw [openKinds_append_singleton]
    exact h.kinds
  · rwa [Mark.landmarksOf_append_singleton, openNames_append]
  · exact houter
  · intro other
    rw [hinit, initializing]
  · intro other hother
    exact ⟨name, rfl, ((initializing other).mp hother).1⟩
  · rintro _ ⟨⟩
    rw [Mark.landmarksOf_append_singleton, openNames_append]
    exact Tells.mem_of_declares _ name.lexeme

end Stands

/-! ## What a walk reports -/

/-- From one place to another, the walk notes one error for each mark that offends, and no other. -/
def Reports (start : Place) (ms : List Mark) (stop : Place) (f : Walk → Walk) : Prop :=
  ∀ before walk, Stands start before walk → Stands stop (before ++ ms) (f walk) ∧
    ∃ new, (f walk).errors = walk.errors ++ new ∧ Lists before ms new

theorem errors_bind (walk : Walk) (id : OccurrenceId) (name : Token) :
    (walk.bind id name).errors = walk.errors := by
  unfold Walk.bind
  split <;> rfl

theorem errors_define (walk : Walk) (name : Token) : (walk.define name).errors = walk.errors := by
  unfold Walk.define
  split <;> rfl

namespace Reports

variable {start between stop : Place} {ms ms' : List Mark} {m : Mark} {f g : Walk → Walk}
  {kinds : List ScopeKind} {kind : ScopeKind}

theorem nothing (place : Place) : Reports place [] place id := by
  intro before walk h
  rw [List.append_nil]
  exact ⟨h, [], by simp, .nil⟩

theorem seq (hf : Reports start ms between f) (hg : Reports between ms' stop g) :
    Reports start (ms ++ ms') stop (fun walk => g (f walk)) := by
  intro before walk h
  obtain ⟨hbetween, new, hnew, hlists⟩ := hf before walk h
  obtain ⟨hstop, new', hnew', hlists'⟩ := hg _ _ hbetween
  rw [← List.append_assoc]
  exact ⟨hstop, new ++ new', by rw [hnew', hnew, List.append_assoc], hlists.append hlists'⟩

/-- A mark that cannot offend. -/
theorem harmless (hm : ∀ before error, ¬Offends before m error)
    (herrors : ∀ walk, (f walk).errors = walk.errors)
    (hstop : ∀ {before walk}, Stands start before walk → Stands stop (before ++ [m]) (f walk)) :
    Reports start [m] stop f := by
  intro before walk h
  exact ⟨hstop h, [], by rw [herrors, List.append_nil], .harmless (hm before) .nil⟩

theorem declare (name : Token) :
    Reports ⟨kinds, none⟩ [.declares name] ⟨kinds, some name⟩ (·.declare name) := by
  intro before walk h
  show Stands _ _ (walk.declare name) ∧ ∃ new, (walk.declare name).errors = _ ∧ _
  have settled : Settled walk.scopes := h.settled
  have hnames := h.names
  cases hscopes : walk.scopes with
  | nil =>
    -- outside of all scopes nothing is declared
    rw [hscopes] at hnames
    have none : openNames (Mark.landmarksOf before) [] = [] := List.forall₂_nil_left_iff.mp hnames
    have same : walk.declare name = walk := by simp [Walk.declare, hscopes]
    rw [same]
    refine ⟨h.declares ?_ ?_ fun other => ?_, [], (List.append_nil _).symm, .harmless ?_ .nil⟩
    · rw [hscopes, none]
      exact .nil
    · rw [hscopes]
      exact fun _ hscope => nomatch hscope
    · simp [Walk.isInitializing, hscopes, newHere_iff, none]
    · intro error hoffends
      cases hoffends with
      | redeclared hdeclared => simp [declaredHere_iff, none] at hdeclared
  | cons scope outer =>
    rw [hscopes] at hnames settled
    obtain ⟨inner, rest, hinner, hrest, hopen⟩ := List.forall₂_cons_left_iff.mp hnames
    have fresh : ∀ other, scope.find? other ≠ some false := (List.forall_mem_cons.mp settled).1
    have outer_settled : Settled outer := (List.forall_mem_cons.mp settled).2
    have named : ∀ other, scope.contains other = true ↔ DeclaredHere before other := by
      intro other
      simp [declaredHere_iff, hopen, hinner]
    have new : ∀ other, NewHere before other ↔ ¬DeclaredHere before other := by
      intro other
      simp [newHere_iff, declaredHere_iff, hopen]
    cases hcontains : scope.contains name.lexeme with
    | true =>
      have reported : walk.declare name = walk.report name .redeclared := by
        simp [Walk.declare, hscopes, hcontains]
      have declared : DeclaredHere before name.lexeme := (named _).mp hcontains
      rw [reported]
      refine ⟨h.declares ?_ ?_ fun other => ?_, _, rfl, .offending (.redeclared declared) .nil⟩
      · show Names walk.scopes _
        rw [hscopes, hopen]
        refine .cons (fun other => ?_) hrest
        rw [hinner, List.mem_cons]
        exact (or_iff_right_of_imp fun heq => heq ▸ (hinner _).mp hcontains).symm
      · show Settled walk.scopes.tail
        rwa [hscopes]
      · -- the name keeps the value that it has been declared with
        have ready : (walk.report name .redeclared).isInitializing other = false := by
          simpa [Walk.isInitializing, Walk.report, hscopes] using fresh other
        rw [ready, new]
        refine iff_of_false Bool.false_ne_true ?_
        rintro ⟨rfl, hother⟩
        exact hother declared
    | false =>
      have inserted : walk.declare name =
          { walk with scopes := scope.insert name.lexeme false :: outer } := by
        simp [Walk.declare, hscopes, hcontains]
      have undeclared : ¬DeclaredHere before name.lexeme := by
        rw [← named, hcontains]
        exact Bool.false_ne_true
      rw [inserted]
      refine ⟨h.declares ?_ outer_settled fun other => ?_, [], (List.append_nil _).symm,
        .harmless ?_ .nil⟩
      · rw [hopen]
        refine .cons (fun other => ?_) hrest
        rw [contains_insert, hinner, List.mem_cons]
      · rw [new]
        by_cases heq : name.lexeme = other
        · subst heq
          simp [Walk.isInitializing, undeclared]
        · simp [Walk.isInitializing, Bindings.find?_insert_of_ne _ _ heq, fresh other, heq]
      · intro error hoffends
        cases hoffends with
        | redeclared hdeclared => exact undeclared hdeclared

theorem define (name : Token) :
    Reports ⟨kinds, some name⟩ [.defines name] ⟨kinds, none⟩ (·.define name) := by
  refine harmless nofun (fun walk => errors_define walk name) fun {before walk} h => ?_
  refine .of_settled h.kinds ?_ ?_ ?_
  · rw [Walk.scopes_define]
    exact h.names.defining (h.declared name rfl)
  · rw [Walk.scopes_define]
    cases hscopes : walk.scopes with
    | nil => exact fun _ hscope => nomatch hscope
    | cons scope outer =>
      refine .cons (by simpa [hscopes] using h.outer) fun other hother => ?_
      rw [Bindings.find?_insert] at hother
      split at hother
      · nomatch hother
      · next hne =>
        -- another name is not the one that waits for its initializer
        have initializing : walk.isInitializing other = true := by
          simp [Walk.isInitializing, hscopes, hother]
        obtain ⟨_, ⟨⟩, hpending⟩ := h.pending other ((h.initializing other).mp initializing)
        exact hne hpending
  · intro other
    simp [inOwnInitializer_append_singleton, Mark.IsUse]

theorem introduce (name : Token) :
    Reports ⟨kinds, none⟩ name.introduction ⟨kinds, none⟩ (·.introduce name) :=
  (declare name).seq (define name)

theorem introduces (params : List Token) :
    Reports ⟨kinds, none⟩ (params.flatMap Token.introduction) ⟨kinds, none⟩
      (params.foldl Walk.introduce) := by
  induction params with
  | nil => exact nothing _
  | cons param more ih => exact (introduce param).seq ih

/-- A scope is opened with the names that its landmarks declare, all of them defined. -/
theorem opens {scope : Scope} (hscope : ∀ name, scope.find? name ≠ some false)
    (hnames : ∀ scopes names, Names scopes names →
      Names (scope :: scopes) (openNames (Mark.opens kind).landmarks names)) :
    Reports ⟨kinds, none⟩ [.opens kind] ⟨kind :: kinds, none⟩ (·.enter scope) := by
  refine harmless nofun (fun _ => rfl) fun {before walk} h => ?_
  refine .of_settled (by rw [Mark.apply, h.kinds]) (hnames _ _ h.names) ?_ fun name => ?_
  · exact h.settled.cons hscope
  · simp [inOwnInitializer_append_singleton, Mark.IsUse]

theorem enter (hkind : (Mark.opens kind).landmarks = [.opens]) :
    Reports ⟨kinds, none⟩ [.opens kind] ⟨kind :: kinds, none⟩ (·.enter .empty) := by
  refine opens (by simp) fun scopes names h => ?_
  rw [hkind]
  exact .cons (by simp [contains_empty]) h

theorem enterClass :
    Reports ⟨kinds, none⟩ [.opens .cls] ⟨.cls :: kinds, none⟩ (·.enter classScope) := by
  refine opens (fun name => ?_) fun scopes names h => .cons (fun name => ?_) h
  · rw [classScope, Bindings.find?_insert]
    split <;> simp
  · rw [classScope, contains_insert, contains_empty, List.mem_singleton]
    simp

theorem leave : Reports ⟨kind :: kinds, none⟩ [.closes] ⟨kinds, none⟩ Walk.leave := by
  refine harmless nofun (fun _ => rfl) fun {before walk} h => ?_
  refine .of_settled (by rw [Mark.apply, h.kinds]; rfl) h.names.tail h.outer fun name => ?_
  simp [inOwnInitializer_append_singleton, Mark.IsUse]

theorem bind (place : Place) (id : OccurrenceId) (name : Token) :
    Reports place [] place (·.bind id name) := by
  intro before walk h
  refine ⟨?_, [], by rw [errors_bind, List.append_nil], .nil⟩
  rw [List.append_nil]
  exact h.of_scopes (walk.scopes_bind id name)

theorem read (place : Place) (id : OccurrenceId) (name : Token) :
    Reports place [.reads name] place (·.read id name) := by
  intro before walk h
  have scopes : (walk.read id name).scopes = walk.scopes := by
    simp only [Walk.read, Walk.scopes_bind]
    split <;> rfl
  have stands : Stands place (before ++ [.reads name]) walk := h.use trivial
  refine ⟨stands.of_scopes scopes, ?_⟩
  simp only [Walk.read, errors_bind]
  cases hinit : walk.isInitializing name.lexeme with
  | true =>
    refine ⟨_, rfl, .offending (.readInOwnInitializer ?_) .nil⟩
    exact (h.initializing name.lexeme).mp hinit
  | false =>
    refine ⟨[], (List.append_nil _).symm, .harmless (fun error hoffends => ?_) .nil⟩
    cases hoffends with
    | readInOwnInitializer hown =>
      rw [(h.initializing name.lexeme).mpr hown] at hinit
      nomatch hinit

theorem receiver (place : Place) (id : OccurrenceId) (keyword : Token) :
    Reports place [.receiver keyword] place
      (expression (contextOf place.kinds).insideClass (.this id keyword)) := by
  intro before walk h
  have inside : (contextOf place.kinds).insideClass = true ↔ ∃ d, Inside before d .cls := by
    simp only [insideClass_contextOf, inside_iff, h.kinds, List.mem_iff_getElem?]
  have stands : Stands place (before ++ [.receiver keyword]) walk := h.use trivial
  cases hclass : (contextOf place.kinds).insideClass with
  | true =>
    rw [expression, if_pos rfl]
    refine ⟨stands.of_scopes (walk.scopes_bind id keyword), [], ?_, .harmless ?_ .nil⟩
    · rw [errors_bind, List.append_nil]
    · intro error hoffends
      cases hoffends with
      | thisOutsideClass houtside =>
        obtain ⟨d, hd⟩ := inside.mp hclass
        exact houtside d hd
  | false =>
    refine ⟨stands.of_scopes rfl, _, rfl, .offending (.thisOutsideClass fun d hd => ?_) .nil⟩
    rw [inside.mpr ⟨d, hd⟩] at hclass
    nomatch hclass

theorem checkReturn (keyword : Token) (hasValue : Bool) :
    Reports ⟨kinds, none⟩ [.returns keyword hasValue] ⟨kinds, none⟩
      (·.checkReturn (contextOf kinds) keyword hasValue) := by
  intro before walk h
  have inFunction : ∀ kind, InFunction before kind ↔
      kinds.find? ScopeKind.isFunction = some kind := by
    intro kind
    rw [inFunction_iff, h.kinds]
  constructor
  · refine .of_settled h.kinds ?_ ?_ fun name => ?_
    · rw [Walk.scopes_checkReturn]
      exact h.names
    · rw [Walk.scopes_checkReturn]
      exact h.settled
    · simp [inOwnInitializer_append_singleton, Mark.IsUse]
  cases hfind : kinds.find? ScopeKind.isFunction with
  | none =>
    have context : (contextOf kinds).function = .outside := by rw [function_contextOf, hfind]
    simp only [Walk.checkReturn, context]
    refine ⟨_, rfl, .offending (.returnOutsideFunction fun kind hkind => ?_) .nil⟩
    rw [inFunction, hfind] at hkind
    nomatch hkind
  | some kind =>
    have inside : InFunction before kind := (inFunction kind).mpr hfind
    have quiet : (hasValue = true → ∀ name, kind = .method name → name.lexeme ≠ initializerName) →
        ∀ error, ¬Offends before (.returns keyword hasValue) error := by
      intro hno error hoffends
      cases hoffends with
      | returnOutsideFunction houtside => exact houtside kind inside
      | valueFromInitializer hother hname =>
        have same : kind = .method _ := Option.some.inj (hfind.symm.trans ((inFunction _).mp hother))
        exact hno rfl _ same hname
    cases kind with
    | block => exact absurd (List.find?_some hfind) Bool.false_ne_true
    | cls => exact absurd (List.find?_some hfind) Bool.false_ne_true
    | function =>
      have context : (contextOf kinds).function = .function := by rw [function_contextOf, hfind]
      simp only [Walk.checkReturn, context]
      exact ⟨[], (List.append_nil _).symm, .harmless (quiet fun _ _ heq => nomatch heq) .nil⟩
    | method name =>
      by_cases hname : name.lexeme = initializerName
      · have context : (contextOf kinds).function = .initializer := by
          simp [function_contextOf, hfind, methodContext, hname]
        simp only [Walk.checkReturn, context]
        cases hasValue with
        | true => exact ⟨_, rfl, .offending (.valueFromInitializer inside hname) .nil⟩
        | false => exact ⟨[], (List.append_nil _).symm, .harmless (quiet nofun) .nil⟩
      · have context : (contextOf kinds).function = .method := by
          simp [function_contextOf, hfind, methodContext, hname]
        simp only [Walk.checkReturn, context]
        refine ⟨[], (List.append_nil _).symm, .harmless (quiet ?_) .nil⟩
        rintro _ _ ⟨⟩
        exact hname

end Reports

/-! ## The errors of programs -/

mutual

/-- A walk over an expression reports its marks. -/
theorem expression_reports (place : Place) : ∀ (value : Expr),
    Reports place value.marks place (expression (contextOf place.kinds).insideClass value)
  | .literal _ => .nothing place
  | .grouping inner => expression_reports place inner
  | .unary _ operand => expression_reports place operand
  | .binary left _ right => (expression_reports place left).seq (expression_reports place right)
  | .logical left _ right => (expression_reports place left).seq (expression_reports place right)
  | .var id name => .read place id name
  | .assign id name value => by
    have h := (expression_reports place value).seq (.bind place id name)
    rwa [List.append_nil] at h
  | .call callee _ arguments =>
    (expression_reports place callee).seq (expressions_reports place arguments)
  | .get object _ => expression_reports place object
  | .set object _ value => (expression_reports place value).seq (expression_reports place object)
  | .this id keyword => .receiver place id keyword

/-- A walk over expressions reports their marks. -/
theorem expressions_reports (place : Place) : ∀ (values : List Expr),
    Reports place (Expr.marksIn values) place
      (expressions (contextOf place.kinds).insideClass values)
  | [] => .nothing place
  | first :: more => (expression_reports place first).seq (expressions_reports place more)

end

theorem optional_reports (place : Place) (value : Option Expr) :
    Reports place (Expr.marksOf value) place
      (optional (contextOf place.kinds).insideClass value) := by
  cases value with
  | none => exact .nothing place
  | some value => exact expression_reports place value

mutual

/-- A walk over a statement reports its marks. -/
theorem statement_reports : ∀ (kinds : List ScopeKind) (t : Stmt),
    Reports ⟨kinds, none⟩ t.marks ⟨kinds, none⟩ (statement (contextOf kinds) t)
  | kinds, .expression value => expression_reports ⟨kinds, none⟩ value
  | kinds, .print value => expression_reports ⟨kinds, none⟩ value
  | kinds, .varDecl name initializer =>
    (Reports.declare name).seq
      ((optional_reports ⟨kinds, some name⟩ initializer).seq (.define name))
  | kinds, .block body =>
    (Reports.enter rfl).seq ((statements_reports (.block :: kinds) body).seq .leave)
  | kinds, .ifThen condition thenBranch =>
    (expression_reports ⟨kinds, none⟩ condition).seq (statement_reports kinds thenBranch)
  | kinds, .ifElse condition thenBranch elseBranch =>
    (expression_reports ⟨kinds, none⟩ condition).seq
      ((statement_reports kinds thenBranch).seq (statement_reports kinds elseBranch))
  | kinds, .whileLoop condition body =>
    (expression_reports ⟨kinds, none⟩ condition).seq (statement_reports kinds body)
  | kinds, .funDecl declaration =>
    (Reports.introduce declaration.name).seq (function_reports kinds .function rfl declaration)
  | kinds, .returns keyword value =>
    (Reports.checkReturn keyword value.isSome).seq (optional_reports ⟨kinds, none⟩ value)
  | kinds, .classDecl name declarations =>
    (Reports.introduce name).seq
      (Reports.enterClass.seq ((methods_reports kinds declarations).seq .leave))

/-- A walk over a function reports its marks. -/
theorem function_reports (kinds : List ScopeKind) (kind : ScopeKind)
    (hkind : (Mark.opens kind).landmarks = [.opens]) : ∀ (declaration : FunctionDecl),
    Reports ⟨kinds, none⟩ (declaration.marks kind) ⟨kinds, none⟩
      (function (contextOf (kind :: kinds)) declaration)
  | ⟨_, params, body⟩ =>
    (Reports.enter hkind).seq
      ((Reports.introduces params).seq ((statements_reports (kind :: kinds) body).seq .leave))

/-- A walk over statements reports their marks. -/
theorem statements_reports : ∀ (kinds : List ScopeKind) (body : List Stmt),
    Reports ⟨kinds, none⟩ (Stmt.marksIn body) ⟨kinds, none⟩ (statements (contextOf kinds) body)
  | kinds, [] => .nothing ⟨kinds, none⟩
  | kinds, first :: more => (statement_reports kinds first).seq (statements_reports kinds more)

/-- A walk over the methods of a class reports their marks. -/
theorem methods_reports : ∀ (kinds : List ScopeKind) (declarations : List FunctionDecl),
    Reports ⟨.cls :: kinds, none⟩ (FunctionDecl.marksIn declarations) ⟨.cls :: kinds, none⟩
      (methods declarations)
  | kinds, [] => .nothing ⟨.cls :: kinds, none⟩
  | kinds, first :: more =>
    (function_reports (.cls :: kinds) (.method first.name) rfl first).seq
      (methods_reports kinds more)

end

/-- A walk over a program from the start lists the errors of its marks. -/
theorem program_lists (program : List Stmt) :
    Lists [] (Stmt.marksIn program) (statements .outermost program .start).errors := by
  obtain ⟨-, new, hnew, hlists⟩ := statements_reports [] program [] .start .start
  have errors : (statements .outermost program .start).errors = new := hnew
  rwa [errors]

end Lox.Resolution

namespace Lox

open Resolution in
/-- The errors of a program are those of its marks: it is rejected with just the list that has one error
for each mark that offends, so just if there is one. Behind a program no scope is open, and what follows
is walked over as from the start. -/
theorem diagnostics_exact (program : List Stmt) :
    (∀ errors, resolveProgram program = .error errors ↔
      errors ≠ [] ∧ Lists [] (Stmt.marksIn program) errors) ∧
    ((∃ errors, resolveProgram program = .error errors) ↔
      ∃ before m after error, Stmt.marksIn program = before ++ m :: after ∧
        Offends before m error) ∧
    (statements .outermost program .start).scopes = [] ∧
    ∀ more, statements .outermost (program ++ more) .start =
      (statements .outermost more .start).behind (statements .outermost program .start) := by
  have lists := program_lists program
  have rejected : ∀ errors, resolveProgram program = .error errors ↔
      errors ≠ [] ∧ Lists [] (Stmt.marksIn program) errors := by
    intro errors
    rw [resolveProgram, Walk.result]
    split
    · next hempty =>
      rw [List.isEmpty_iff.mp hempty] at lists
      refine iff_of_false (by rintro ⟨⟩) ?_
      rintro ⟨hne, hlists⟩
      exact hne (hlists.unique lists)
    · next hne =>
      constructor
      · rintro ⟨⟩
        exact ⟨fun hnil => hne (List.isEmpty_iff.mpr hnil), lists⟩
      · rintro ⟨-, hlists⟩
        rw [hlists.unique lists]
  have closed : (statements .outermost program .start).scopes = [] :=
    List.length_eq_zero_iff.mp (statements_depth .outermost program .start)
  refine ⟨rejected, ?_, closed, fun more => ?_⟩
  · constructor
    · rintro ⟨errors, h⟩
      obtain ⟨hne, hlists⟩ := (rejected errors).mp h
      exact hlists.ne_nil_iff.mp hne
    · intro hoffends
      exact ⟨_, (rejected _).mpr ⟨lists.ne_nil_iff.mpr hoffends, lists⟩⟩
  · rw [statements_append, ← statements_behind, Walk.start_behind closed]

end Lox
