import Lox.Proofs.Renaming.Scopes
import Lox.Proofs.Resolution.Relabeling

/-!
# Two walks in step

A walk over a program and a walk over the same program with its names called otherwise go in step: their
scopes have the same names but for what they are called, they find the same distances, and they report
the same issues (`statement_inStep`). The new name is not in use, so it neither hides another name nor
is hidden by one; this is where a variable could be captured.
-/

namespace Lox

open Renaming

/-- The distances of a program as a record. -/
def Respelling.record (s : Respelling) (n : OccurrenceId) : Record := ⟨s.distance?, n⟩

open Respelling

namespace Resolution

/-! ## Scopes -/

/-- The second scope has the names of the first one, called as the renaming says. -/
def Calls (ρ : Renaming) (scope scope' : Scope) : Prop :=
  ∀ name, scope'.find? (ρ.names name) = scope.find? name

/-- The second scopes have the names of the first ones, called as the renamings say. -/
inductive CallsAll : List Renaming → List Scope → List Scope → Prop
  | nil : CallsAll [] [] []
  | cons {ρ : Renaming} {ρs : List Renaming} {scope scope' : Scope} {outer outer' : List Scope} :
      Calls ρ scope scope' → CallsAll ρs outer outer' →
      CallsAll (ρ :: ρs) (scope :: outer) (scope' :: outer')

section

variable {s : Respelling} {ρ : Renaming} {scope scope' : Scope}

theorem calls_empty (ρ : Renaming) : Calls ρ .empty .empty := fun _ => rfl

theorem calls_same (scope : Scope) : Calls same scope scope := fun _ => rfl

theorem Calls.insert (h : Calls ρ scope scope') (name : String) (ready : Bool) :
    Calls ρ (scope.insert name ready) (scope'.insert (ρ.names name) ready) := by
  intro other
  rw [Bindings.find?_insert, Bindings.find?_insert, h other]
  simp only [ρ.names.injective.eq_iff]

/-- What is called otherwise because of another scope is not in this one either. -/
theorem Calls.absent (h : Calls ρ scope scope') (hfits : s.Fits ρ) {name called : String}
    (hname : name ≠ s.new) (hcalled : called = name ∨ name = s.old ∧ called = s.new)
    (habsent : scope.find? name = none) (hnew : scope.find? s.new = none) :
    scope'.find? called = none := by
  obtain ⟨other, rfl⟩ := ρ.names.surjective called
  rw [h other]
  by_cases hother : other = s.new
  · rw [hother, hnew]
  rcases hfits other hother with hkeeps | ⟨rfl, hchanges⟩
  · rcases hcalled with hcalled | ⟨-, hcalled⟩
    · rw [hkeeps.symm.trans hcalled, habsent]
    · exact absurd (hkeeps.symm.trans hcalled) hother
  · rcases hcalled with hcalled | ⟨rfl, -⟩
    · exact absurd (hcalled.symm.trans hchanges) hname
    · exact habsent

variable {ρs : List Renaming} {scopes scopes' outer outer' : List Scope}

/-- In the innermost scope, a name is found as what it is called is found in the other one. -/
theorem CallsAll.find?_head (h : CallsAll (ρ :: ρs) (scope :: outer) (scope' :: outer'))
    (hfits : s.FitsAll (ρ :: ρs)) (hnew : scope.find? s.new = none) {name : String}
    (hname : name ≠ s.new) :
    scope'.find? (calledAt (ρ :: ρs) ((scope :: outer).findIdx? (·.contains name)) name) =
      scope.find? name := by
  cases h with
  | cons hscope _ =>
    by_cases hcontains : scope.contains name
    · rw [List.findIdx?_cons, if_pos hcontains]
      exact hscope name
    · have absent : scope.find? name = none := by
        rw [Bool.not_eq_true] at hcontains
        exact Option.not_isSome_iff_eq_none.mp (by simpa [Bindings.contains] using hcontains)
      rw [absent]
      exact hscope.absent (hfits ρ List.mem_cons_self) hname (hfits.calledAt _ hname) absent
        hnew

/-- What a name is called has the distance that the name has. -/
theorem CallsAll.findIdx? (h : CallsAll ρs scopes scopes') (hfits : s.FitsAll ρs)
    (hnew : ∀ scope ∈ scopes, scope.find? s.new = none) {name : String} (hname : name ≠ s.new) :
    scopes'.findIdx?
        (·.contains (calledAt ρs (scopes.findIdx? (·.contains name)) name)) =
      scopes.findIdx? (·.contains name) := by
  induction h with
  | nil => rfl
  | @cons ρ ρs scope scope' outer outer' hscope houter ih =>
    obtain ⟨hhere, hbehind⟩ := List.forall_mem_cons.mp hnew
    have head := (CallsAll.cons hscope houter).find?_head hfits hhere hname
    have same : scope'.contains
        (calledAt (ρ :: ρs) ((scope :: outer).findIdx? (·.contains name)) name) =
          scope.contains name := congrArg Option.isSome head
    rw [List.findIdx?_cons, same]
    by_cases hcontains : scope.contains name
    · rw [if_pos hcontains, List.findIdx?_cons, if_pos hcontains]
    · rw [if_neg hcontains, List.findIdx?_cons, if_neg hcontains, calledAt_succ,
        ih (fun ρ' hρ' => hfits ρ' (List.mem_cons_of_mem _ hρ')) hbehind]

theorem CallsAll.length (h : CallsAll ρs scopes scopes') : ρs.length = scopes.length := by
  induction h with
  | nil => rfl
  | cons _ _ ih => rw [List.length_cons, List.length_cons, ih]

end

/-! ## Walks -/

/-- Two walks whose scopes have the same names, called as the renamings say, and that have found the
same. -/
structure InStep (s : Respelling) (ρs : List Renaming) (walk walk' : Walk) : Prop where
  fits : s.FitsAll ρs
  scopes : CallsAll ρs walk.scopes walk'.scopes
  absent : ∀ scope ∈ walk.scopes, scope.find? s.new = none
  distances : walk'.distances = walk.distances
  issues : walk'.errors.map (·.issue) = walk.errors.map (·.issue)

namespace InStep

variable {s : Respelling} {ρ : Renaming} {ρs : List Renaming} {walk walk' : Walk}

theorem start (s : Respelling) : InStep s [] .start .start :=
  ⟨List.forall_mem_nil _, .nil, List.forall_mem_nil _, rfl, rfl⟩

theorem report (h : InStep s ρs walk walk') (token token' : Token) (issue : ScopeIssue) :
    InStep s ρs (walk.report token issue) (walk'.report token' issue) where
  fits := h.fits
  scopes := h.scopes
  absent := h.absent
  distances := h.distances
  issues := by
    simp only [Walk.report, List.map_append, h.issues]
    rfl

theorem enter (h : InStep s ρs walk walk') (hρ : s.Fits ρ) {scope scope' : Scope}
    (hscope : Calls ρ scope scope') (hnew : scope.find? s.new = none) :
    InStep s (ρ :: ρs) (walk.enter scope) (walk'.enter scope') where
  fits := h.fits.cons hρ
  scopes := .cons hscope h.scopes
  absent := List.forall_mem_cons.mpr ⟨hnew, h.absent⟩
  distances := h.distances
  issues := h.issues

theorem leave (h : InStep s (ρ :: ρs) walk walk') : InStep s ρs walk.leave walk'.leave := by
  obtain ⟨scopes, distances, errors⟩ := walk
  obtain ⟨scopes', distances', errors'⟩ := walk'
  obtain ⟨fits, scopes, absent, distances, issues⟩ := h
  cases scopes with
  | cons _ houter =>
    exact ⟨(List.forall_mem_cons.mp fits).2, houter, (List.forall_mem_cons.mp absent).2, distances,
      issues⟩

/-- Another innermost scope, with another name in it. -/
theorem insert {scope scope' : Scope} {outer outer' : List Scope}
    {distances distances' : Distances} {errors errors' : List ScopeError}
    (h : InStep s ρs ⟨scope :: outer, distances, errors⟩ ⟨scope' :: outer', distances', errors'⟩)
    {name : String} (hname : name ≠ s.new) (ready : Bool) :
    InStep s ρs ⟨scope.insert name ready :: outer, distances, errors⟩
      ⟨scope'.insert ((innermost ρs).names name) ready :: outer', distances', errors'⟩ := by
  obtain ⟨fits, scopes, absent, distances, issues⟩ := h
  obtain ⟨hhere, hbehind⟩ := List.forall_mem_cons.mp absent
  cases scopes with
  | cons hscope houter =>
    refine ⟨fits, .cons (hscope.insert name ready) houter, ?_, distances, issues⟩
    refine List.forall_mem_cons.mpr ⟨?_, hbehind⟩
    rw [Bindings.find?_insert_of_ne _ _ hname]
    exact hhere

theorem declare (h : InStep s ρs walk walk') {name name' : Token}
    (hcalled : name'.lexeme = (innermost ρs).names name.lexeme) (hname : name.lexeme ≠ s.new) :
    InStep s ρs (walk.declare name) (walk'.declare name') := by
  obtain ⟨scopes, distances, errors⟩ := walk
  obtain ⟨scopes', distances', errors'⟩ := walk'
  have alike := h.scopes
  cases alike with
  | nil => exact h
  | @cons _ _ scope scope' _ _ hscope _ =>
    have contains : scope'.contains name'.lexeme = scope.contains name.lexeme := by
      rw [hcalled]
      exact congrArg Option.isSome (hscope name.lexeme)
    simp only [Walk.declare, contains]
    split
    · exact h.report name name' .redeclared
    · rw [hcalled]
      exact h.insert hname false

theorem define (h : InStep s ρs walk walk') {name name' : Token}
    (hcalled : name'.lexeme = (innermost ρs).names name.lexeme) (hname : name.lexeme ≠ s.new) :
    InStep s ρs (walk.define name) (walk'.define name') := by
  obtain ⟨scopes, distances, errors⟩ := walk
  obtain ⟨scopes', distances', errors'⟩ := walk'
  have alike := h.scopes
  cases alike with
  | nil => exact h
  | cons =>
    simp only [Walk.define, hcalled]
    exact h.insert hname true

theorem introduce (h : InStep s ρs walk walk') {name name' : Token}
    (hcalled : name'.lexeme = (innermost ρs).names name.lexeme) (hname : name.lexeme ≠ s.new) :
    InStep s ρs (walk.introduce name) (walk'.introduce name') :=
  (h.declare hcalled hname).define hcalled hname

theorem introduces {params : List Token} (hparams : ∀ param ∈ params, param.lexeme ≠ s.new)
    (h : InStep s (ρ :: ρs) walk walk') :
    InStep s (ρ :: ρs) (params.foldl Walk.introduce walk)
      ((params.map fun param => param.called (ρ.names param.lexeme)).foldl Walk.introduce
        walk') := by
  induction params generalizing walk walk' with
  | nil => exact h
  | cons param more ih =>
    obtain ⟨hparam, hmore⟩ := List.forall_mem_cons.mp hparams
    exact ih hmore (h.introduce rfl hparam)

theorem distance? (h : InStep s ρs walk walk') {id : OccurrenceId} {name : Token}
    (hname : name.lexeme ≠ s.new) (hdistance : s.distance? id = walk.distance? name.lexeme) :
    walk'.distance? (s.spelled ρs id name).lexeme = walk.distance? name.lexeme := by
  have found := h.scopes.findIdx? h.fits h.absent hname
  show walk'.scopes.findIdx? (·.contains (calledAt ρs (s.distance? id) name.lexeme)) = _
  rw [hdistance]
  exact found

theorem bind (h : InStep s ρs walk walk') {id : OccurrenceId} {name : Token}
    (hname : name.lexeme ≠ s.new) (hdistance : s.distance? id = walk.distance? name.lexeme) :
    InStep s ρs (walk.bind id name) (walk'.bind id (s.spelled ρs id name)) := by
  unfold Walk.bind
  rw [h.distance? hname hdistance]
  cases walk.distance? name.lexeme with
  | none => exact h
  | some d => exact ⟨h.fits, h.scopes, h.absent, congrArg (List.cons (id, d)) h.distances, h.issues⟩

theorem isInitializing (h : InStep s ρs walk walk') {id : OccurrenceId} {name : Token}
    (hname : name.lexeme ≠ s.new) (hdistance : s.distance? id = walk.distance? name.lexeme) :
    walk'.isInitializing (s.spelled ρs id name).lexeme = walk.isInitializing name.lexeme := by
  obtain ⟨scopes, distances, errors⟩ := walk
  obtain ⟨scopes', distances', errors'⟩ := walk'
  obtain ⟨fits, scopes, absent, -, -⟩ := h
  cases scopes with
  | nil => rfl
  | @cons ρ ρs scope scope' outer outer' hscope houter =>
    have hnew := (List.forall_mem_cons.mp absent).1
    have head := (CallsAll.cons hscope houter).find?_head fits hnew hname
    show (scope'.find? (calledAt (ρ :: ρs) (s.distance? id) name.lexeme) == some false) = _
    rw [hdistance]
    exact congrArg (· == some false) head

theorem read (h : InStep s ρs walk walk') {id : OccurrenceId} {name : Token}
    (hname : name.lexeme ≠ s.new) (hdistance : s.distance? id = walk.distance? name.lexeme) :
    InStep s ρs (walk.read id name) (walk'.read id (s.spelled ρs id name)) := by
  unfold Walk.read
  rw [h.isInitializing hname hdistance]
  split
  · exact (h.report name (s.spelled ρs id name) .readInOwnInitializer).bind hname hdistance
  · exact h.bind hname hdistance

/-- The receiver is bound under its own name. -/
theorem bind_receiver (h : InStep s ρs walk walk') {id : OccurrenceId} {keyword : Token}
    (hname : keyword.lexeme ≠ s.new) (hdistance : s.distance? id = walk.distance? keyword.lexeme)
    (hkeyword : keyword.lexeme = receiverName) :
    InStep s ρs (walk.bind id keyword) (walk'.bind id keyword) := by
  have spelled : s.spelled ρs id keyword = keyword := by
    rw [Respelling.spelled, hkeyword, calledAt_receiver, ← hkeyword]
    rfl
  have bound := h.bind hname hdistance
  rwa [spelled] at bound

theorem checkReturn (h : InStep s ρs walk walk') (context : Context) (keyword : Token)
    (hasValue : Bool) :
    InStep s ρs (walk.checkReturn context keyword hasValue)
      (walk'.checkReturn context keyword hasValue) := by
  unfold Walk.checkReturn
  split
  · exact h.report _ _ _
  · split
    · exact h.report _ _ _
    · exact h
  all_goals exact h

end InStep

/-! ## Walks over expressions -/

section

variable {s : Respelling} {n : OccurrenceId} {ρs : List Renaming}

mutual

theorem expression_inStep (insideClass : Bool) {scopes : List Scope} : (e : Expr) →
    {walk walk' : Walk} → walk.scopes = scopes → InStep s ρs walk walk' →
    e.Bound (s.record n) scopes → e.Avoids s.new →
      InStep s ρs (expression insideClass e walk)
        (expression insideClass (e.respell (s.spelled ρs)) walk')
  | .literal _, _, _, _, h, _, _ => h
  | .grouping inner, _, _, hscopes, h, hbound, havoids =>
    expression_inStep insideClass inner hscopes h hbound havoids
  | .unary _ operand, _, _, hscopes, h, hbound, havoids =>
    expression_inStep insideClass operand hscopes h hbound havoids
  | .binary left _ right, _, _, hscopes, h, hbound, havoids
  | .logical left _ right, _, _, hscopes, h, hbound, havoids => by
    obtain ⟨hleft, hright⟩ := List.forall_mem_append.mp hbound
    obtain ⟨leftAvoids, rightAvoids⟩ := List.forall_mem_append.mp havoids
    have between := expression_inStep insideClass left hscopes h hleft leftAvoids
    exact expression_inStep insideClass right (by rwa [expression_scopes]) between hright rightAvoids
  | .var id name, _, _, hscopes, h, hbound, havoids => by
    subst hscopes
    have bound := hbound _ (List.mem_singleton_self _)
    exact h.read (havoids _ (List.mem_singleton_self _)) bound.recorded
  | .assign id name value, walk, _, hscopes, h, hbound, havoids => by
    obtain ⟨hname, hvalue⟩ := List.forall_mem_cons.mp hbound
    obtain ⟨nameAvoids, valueAvoids⟩ := List.forall_mem_cons.mp havoids
    have between := expression_inStep insideClass value hscopes h hvalue valueAvoids
    refine between.bind nameAvoids ?_
    rw [Walk.distance?, expression_scopes, hscopes]
    exact hname.recorded
  | .call callee _ arguments, _, _, hscopes, h, hbound, havoids => by
    obtain ⟨hcallee, harguments⟩ := List.forall_mem_append.mp hbound
    obtain ⟨calleeAvoids, argumentsAvoid⟩ := List.forall_mem_append.mp havoids
    have between := expression_inStep insideClass callee hscopes h hcallee calleeAvoids
    exact expressions_inStep insideClass arguments (by rwa [expression_scopes]) between harguments
      argumentsAvoid
  | .get object _, _, _, hscopes, h, hbound, havoids =>
    expression_inStep insideClass object hscopes h hbound havoids
  | .set object _ value, _, _, hscopes, h, hbound, havoids => by
    obtain ⟨hobject, hvalue⟩ := List.forall_mem_append.mp hbound
    obtain ⟨objectAvoids, valueAvoids⟩ := List.forall_mem_append.mp havoids
    have between := expression_inStep insideClass value hscopes h hvalue valueAvoids
    exact expression_inStep insideClass object (by rwa [expression_scopes]) between hobject
      objectAvoids
  | .this id keyword, _, _, hscopes, h, hbound, havoids => by
    subst hscopes
    have bound := hbound _ (List.mem_singleton_self _)
    show InStep s ρs (if insideClass then _ else _) (if insideClass then _ else _)
    split
    · exact h.bind_receiver (havoids _ (List.mem_singleton_self _)) bound.recorded
        (bound.spelled.mp rfl)
    · exact h.report _ _ _

theorem expressions_inStep (insideClass : Bool) {scopes : List Scope} : (es : List Expr) →
    {walk walk' : Walk} → walk.scopes = scopes → InStep s ρs walk walk' →
    (∀ o ∈ Expr.occurrencesIn es, o.Bound (s.record n) scopes) →
    (∀ o ∈ Expr.occurrencesIn es, o.token.lexeme ≠ s.new) →
      InStep s ρs (expressions insideClass es walk)
        (expressions insideClass (Expr.respellAll (s.spelled ρs) es) walk')
  | [], _, _, _, h, _, _ => h
  | first :: more, _, _, hscopes, h, hbound, havoids => by
    obtain ⟨hfirst, hmore⟩ := List.forall_mem_append.mp hbound
    obtain ⟨firstAvoids, moreAvoid⟩ := List.forall_mem_append.mp havoids
    have between := expression_inStep insideClass first hscopes h hfirst firstAvoids
    exact expressions_inStep insideClass more (by rwa [expression_scopes]) between hmore moreAvoid

end

theorem optional_inStep (insideClass : Bool) {value : Option Expr} {walk walk' : Walk}
    (h : InStep s ρs walk walk') (hbound : Expr.BoundIfAny (s.record n) walk.scopes value)
    (havoids : Expr.AvoidsIfAny s.new value) :
    InStep s ρs (optional insideClass value walk)
      (optional insideClass (value.map (Expr.respell (s.spelled ρs))) walk') := by
  cases value with
  | none => exact h
  | some value => exact expression_inStep insideClass value rfl h hbound havoids

end

/-! ## Walks over statements -/

section

variable {s : Respelling} {n : OccurrenceId}

theorem find?_classScope (hnew : s.new ≠ receiverName) : classScope.find? s.new = none := by
  rw [classScope, Bindings.find?_insert_of_ne _ _ hnew.symm, Bindings.find?_empty]

mutual

/-- Two walks in step go on in step, if the first one makes no error. -/
theorem statement_inStep (hnew : s.new ≠ receiverName) {context : Context} {ρs : List Renaming} {t t' : Stmt}
    {walk walk' : Walk} : t.Respelt s ρs t' → InStep s ρs walk walk' →
    t.Bound (s.record n) walk.scopes → t.Avoids s.new → t.WellNamed →
    (statement context t walk).errors = [] →
      InStep s ρs (statement context t walk) (statement context t' walk')
  | .expression rfl, h, hbound, havoids, _, _ => expression_inStep _ _ rfl h hbound havoids
  | .print rfl, h, hbound, havoids, _, _ => expression_inStep _ _ rfl h hbound havoids
  | @Stmt.Respelt.varDecl _ _ name _ value _ rfl rfl, h, hbound, havoids, _, hclean => by
    -- the value is walked over behind the declaration of the name, which has made no error
    have declared := (optional_covers _ value).clean ((define_covers name).clean hclean)
    have bound := hbound.2
    rw [← Walk.scopes_declare declared] at bound
    exact (optional_inStep _ (h.declare rfl havoids.1) bound havoids.2).define rfl havoids.1
  | .block ρ hρ hbody, h, hbound, havoids, hnamed, hclean => by
    have opened := h.enter hρ (calls_empty ρ) rfl
    have inside := statements_inStep hnew hbody opened hbound havoids hnamed (leave_covers.clean hclean)
    exact inside.leave
  | .ifThen rfl hbranch, h, hbound, havoids, hnamed, hclean => by
    have between := expression_inStep context.insideClass _ rfl h hbound.1 havoids.1
    have bound := hbound.2.2
    rw [← expression_scopes context.insideClass] at bound
    have behind := statement_inStep hnew hbranch between bound havoids.2 hnamed.2 hclean
    exact behind
  | @Stmt.Respelt.ifElse _ _ _ _ first _ second _ rfl hfirst hsecond, h, hbound, havoids, hnamed,
      hclean => by
    have between := expression_inStep context.insideClass _ rfl h hbound.1 havoids.1
    have hcleanThen := (statement_covers context second).clean hclean
    have behind := (statement_distinct context first hnamed.1.2 hcleanThen).2
    -- a branch declares nothing, so the second one is walked over in the same scopes
    rw [Stmt.after, hnamed.1.1, expression_scopes] at behind
    obtain ⟨-, ⟨-, boundThen⟩, -, boundElse⟩ := hbound
    rw [← expression_scopes context.insideClass] at boundThen
    have thenBranch := statement_inStep hnew hfirst between boundThen havoids.2.1 hnamed.1.2 hcleanThen
    rw [← show _ = walk.scopes from behind] at boundElse
    have elseBranch := statement_inStep hnew hsecond thenBranch boundElse havoids.2.2 hnamed.2.2 hclean
    exact elseBranch
  | .whileLoop rfl hbody, h, hbound, havoids, hnamed, hclean => by
    have between := expression_inStep context.insideClass _ rfl h hbound.1 havoids.1
    have bound := hbound.2.2
    rw [← expression_scopes context.insideClass] at bound
    have behind := statement_inStep hnew hbody between bound havoids.2 hnamed.2 hclean
    exact behind
  | @Stmt.Respelt.funDecl _ _ f f' hname hf, h, hbound, havoids, hnamed, hclean => by
    have introduced := (function_covers _ f).clean hclean
    have bound := hbound.2
    rw [← Walk.scopes_introduce introduced] at bound
    have walked := function_inStep hnew hf (h.introduce hname.symm havoids.1) bound havoids.2 hnamed.2
      hclean
    rw [statement, statement, hf.name_eq]
    exact walked
  | @Stmt.Respelt.returns _ _ keyword value _ rfl, h, hbound, havoids, _, _ => by
    have checked := h.checkReturn context keyword value.isSome
    have bound : Expr.BoundIfAny (s.record n) walk.scopes value := hbound
    rw [← Walk.scopes_checkReturn walk context keyword value.isSome] at bound
    rw [statement, statement, Option.isSome_map]
    exact optional_inStep _ checked bound havoids
  | @Stmt.Respelt.classDecl _ _ name methods _ hname hmethods, h, hbound, havoids, hnamed,
      hclean => by
    have inside := leave_covers.clean hclean
    have entered := (enter_covers classScope).clean ((methods_covers methods).clean inside)
    have bound := hbound.2
    rw [← Walk.scopes_introduce entered] at bound
    have opened := (h.introduce hname.symm havoids.1).enter s.fits_same (calls_same classScope)
      (find?_classScope hnew)
    have walked := methods_inStep hnew hmethods opened bound havoids.2 hnamed.2 inside
    exact walked.leave

theorem function_inStep (hnew : s.new ≠ receiverName) {context : Context} {ρs : List Renaming} {f f' : FunctionDecl}
    {walk walk' : Walk} : f.Respelt s ρs f' → InStep s ρs walk walk' →
    f.Bound (s.record n) walk.scopes → f.Avoids s.new → f.WellNamed →
    (function context f walk).errors = [] →
      InStep s ρs (function context f walk) (function context f' walk')
  | @FunctionDecl.Respelt.intro _ _ name params _ body _ ρ hρ rfl hbody, h, hbound, havoids, hnamed,
      hclean => by
    have inside := leave_covers.clean hclean
    have introduced := (statements_covers context body).clean inside
    have bound := hbound.2
    have opened := h.enter hρ (calls_empty ρ) rfl
    have scopes := Walk.scopes_introduces introduced
    rw [show (walk.enter .empty).scopes = .empty :: walk.scopes from rfl] at scopes
    rw [← scopes] at bound
    have walked := statements_inStep hnew hbody (opened.introduces havoids.1) bound havoids.2 hnamed.2
      inside
    exact walked.leave

/-- Walks over statements stay in step. -/
theorem statements_inStep (hnew : s.new ≠ receiverName) {context : Context} {ρs : List Renaming} {body body' : List Stmt}
    {walk walk' : Walk} : Stmt.RespeltAll s ρs body body' → InStep s ρs walk walk' →
    Stmt.BoundAll (s.record n) walk.scopes body → Stmt.AvoidsAll s.new body →
    Stmt.WellNamedAll body → (statements context body walk).errors = [] →
      InStep s ρs (statements context body walk) (statements context body' walk')
  | .nil, h, _, _, _, _ => h
  | @Stmt.RespeltAll.cons _ _ first _ more _ hfirst hmore, h, hbound, havoids, hnamed, hclean => by
    have hcleanFirst := (statements_covers context more).clean hclean
    have behind := (statement_distinct context first hnamed.1 hcleanFirst).2
    have between := statement_inStep hnew hfirst h hbound.1 havoids.1 hnamed.1 hcleanFirst
    have bound := hbound.2
    rw [← behind] at bound
    have walked := statements_inStep hnew hmore between bound havoids.2 hnamed.2 hclean
    exact walked

theorem methods_inStep (hnew : s.new ≠ receiverName) {ρs : List Renaming} {fs fs' : List FunctionDecl}
    {walk walk' : Walk} : FunctionDecl.RespeltAll s ρs fs fs' → InStep s ρs walk walk' →
    FunctionDecl.BoundAll (s.record n) walk.scopes fs → FunctionDecl.AvoidsAll s.new fs →
    FunctionDecl.WellNamedAll fs → (methods fs walk).errors = [] →
      InStep s ρs (methods fs walk) (methods fs' walk')
  | .nil, h, _, _, _, _ => h
  | @FunctionDecl.RespeltAll.cons _ _ first first' more _ hfirst hmore, h, hbound, havoids, hnamed,
      hclean => by
    have hcleanFirst := (methods_covers more).clean hclean
    have behind := (function_distinct _ first hnamed.1 hcleanFirst).2
    have between := function_inStep hnew hfirst h hbound.1 havoids.1 hnamed.1 hcleanFirst
    have bound := hbound.2
    rw [← behind] at bound
    have walked := methods_inStep hnew hmore between bound havoids.2 hnamed.2 hclean
    rw [methods, methods, hfirst.name_eq]
    exact walked

end

/-- With its names called otherwise, a program is resolved with the same distances. -/
theorem resolveProgram_respelt (hnew : s.new ≠ receiverName) {program program' : List Stmt}
    {distances : Distances} (h : resolveProgram program = .ok distances) (hrespelt : Stmt.RespeltAll s [] program program')
    (hbound : Stmt.BoundAll (s.record n) [] program) (havoids : Stmt.AvoidsAll s.new program)
    (hnamed : Stmt.WellNamedAll program) : resolveProgram program' = .ok distances := by
  obtain ⟨clean, found⟩ := resolveProgram_eq_ok.mp h
  have walked := statements_inStep hnew hrespelt (.start s) hbound havoids hnamed clean
  have clean' := walked.issues
  rw [clean, List.map_nil, List.map_eq_nil_iff] at clean'
  exact resolveProgram_eq_ok.mpr ⟨clean', walked.distances.trans found⟩

end

end Resolution

end Lox
