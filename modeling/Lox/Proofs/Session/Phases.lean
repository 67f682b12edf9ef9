import Lox.Proofs.Machine.Contained
import Lox.Proofs.Session.Following

/-!
# One phase after the other

A unit goes through the lexer, a parser and a resolver before it is run. How it ends tells which of
them found something wrong. It is rejected just if one of them did, with all that the lexer found and,
behind it, all that the first of the others to fail did; then it is as if there were nothing to run
units with. And what stops a run is never what the phases before it look for (`phases_apart`).
-/

namespace Lox

variable {α β : Type}

/-- What a unit goes through behind the lexer. -/
structure Phases (α : Type) where
  parse : OccurrenceId → List Token → Parser.Outcome α
  resolve : α → Except (List ScopeError) Distances

namespace Phases

/-- The phases of a program. -/
def program : Phases (List Stmt) := ⟨parseProgram, resolveProgram⟩

/-- The phases of a single expression. -/
def expression : Phases Expr := ⟨parseExpression, resolveExpression⟩

/-- What a parser or a resolver that fails has against a unit is something. -/
structure Reasoned (p : Phases α) : Prop where
  parse : ∀ {n : OccurrenceId} {tokens : List Token} {errors : List SyntaxError},
    (p.parse n tokens).result = .error errors → errors ≠ []
  resolve : ∀ {tree : α} {errors : List ScopeError}, p.resolve tree = .error errors → errors ≠ []

variable (p : Phases α) (n : OccurrenceId) (source : String)

/-- One of the phases finds something wrong. Names are looked at only if there is a tree. -/
def Objects : Prop :=
  lexicalIssuesOf source ≠ [] ∨
    (∃ errors, (p.parse n (tokensOf source)).result = .error errors) ∨
    ∃ tree errors, (p.parse n (tokensOf source)).result = .ok tree ∧ p.resolve tree = .error errors

/-- Diagnostics are all that the lexer found and, behind that, all that the parser or, if there is a
tree, all that the resolver found. -/
def Reports (diagnostics : List Diagnostic) : Prop :=
  (∃ errors, (p.parse n (tokensOf source)).result = .error errors ∧
      diagnostics = lexicalIssuesOf source ++ errors.map SyntaxError.diagnostic) ∨
    ∃ tree, (p.parse n (tokensOf source)).result = .ok tree ∧
      ((∃ errors, p.resolve tree = .error errors ∧
          diagnostics = lexicalIssuesOf source ++ errors.map ScopeError.diagnostic) ∨
        ∃ distances, p.resolve tree = .ok distances ∧ diagnostics = lexicalIssuesOf source)

/-- What comes of the checks, by the phase that decides. -/
inductive Verdict : Except (List Diagnostic) (α × Distances) → Prop where
  | unread {errors : List SyntaxError} (hparse : (p.parse n (tokensOf source)).result = .error errors) :
    Verdict (.error (lexicalIssuesOf source ++ errors.map SyntaxError.diagnostic))
  | unresolved {tree : α} {errors : List ScopeError}
    (hparse : (p.parse n (tokensOf source)).result = .ok tree)
    (hresolve : p.resolve tree = .error errors) :
    Verdict (.error (lexicalIssuesOf source ++ errors.map ScopeError.diagnostic))
  | misspelled {tree : α} {distances : Distances}
    (hparse : (p.parse n (tokensOf source)).result = .ok tree)
    (hresolve : p.resolve tree = .ok distances) (hlexical : lexicalIssuesOf source ≠ []) :
    Verdict (.error (lexicalIssuesOf source))
  | passed {tree : α} {distances : Distances}
    (hparse : (p.parse n (tokensOf source)).result = .ok tree)
    (hresolve : p.resolve tree = .ok distances) (hlexical : lexicalIssuesOf source = []) :
    Verdict (.ok (tree, distances))

theorem verdict : p.Verdict n source (check p.parse p.resolve n source).result := by
  unfold check
  cases hparse : (p.parse n (tokensOf source)).result with
  | error errors => simpa only [hparse] using .unread hparse
  | ok tree =>
    cases hresolve : p.resolve tree with
    | error errors => simpa only [hparse, hresolve] using .unresolved hparse hresolve
    | ok distances =>
      by_cases hlexical : lexicalIssuesOf source = []
      · simpa only [hparse, hresolve, hlexical, List.isEmpty_nil, if_true]
          using .passed hparse hresolve hlexical
      · have keeps : (lexicalIssuesOf source).isEmpty = false := List.isEmpty_eq_false_iff.mpr hlexical
        simpa only [hparse, hresolve, keeps] using .misspelled hparse hresolve hlexical

variable {p n source}

/-- What did not pass is reported in full, and there is something to report. -/
theorem Verdict.reports (hp : p.Reasoned) {diagnostics : List Diagnostic}
    (h : p.Verdict n source (.error diagnostics)) :
    p.Objects n source ∧ p.Reports n source diagnostics ∧ diagnostics ≠ [] := by
  cases h with
  | unread hparse =>
    exact ⟨.inr (.inl ⟨_, hparse⟩), .inl ⟨_, hparse, rfl⟩, by simp [hp.parse hparse]⟩
  | unresolved hparse hresolve =>
    exact ⟨.inr (.inr ⟨_, _, hparse, hresolve⟩), .inr ⟨_, hparse, .inl ⟨_, hresolve, rfl⟩⟩,
      by simp [hp.resolve hresolve]⟩
  | misspelled hparse hresolve hlexical =>
    exact ⟨.inl hlexical, .inr ⟨_, hparse, .inr ⟨_, hresolve, rfl⟩⟩, hlexical⟩

/-- All that is reported is static. -/
theorem Reports.isStatic {diagnostics : List Diagnostic} (h : p.Reports n source diagnostics) :
    ∀ diagnostic ∈ diagnostics, diagnostic.isStatic := by
  have lexical : ∀ diagnostic ∈ lexicalIssuesOf source, diagnostic.isStatic := by
    intro diagnostic hmem
    obtain ⟨item, -, hitem⟩ := List.mem_filterMap.mp hmem
    cases item with
    | token t => nomatch hitem
    | issue line cause =>
      obtain rfl := Option.some.inj hitem
      rfl
  rcases h with ⟨errors, -, rfl⟩ | ⟨tree, -, ⟨errors, -, rfl⟩ | ⟨distances, -, rfl⟩⟩
  · refine List.forall_mem_append.mpr ⟨lexical, ?_⟩
    exact List.forall_mem_map.mpr fun error _ => rfl
  · refine List.forall_mem_append.mpr ⟨lexical, ?_⟩
    exact List.forall_mem_map.mpr fun error _ => rfl
  · exact lexical

/-- Where something passed, no phase has anything against it. -/
theorem Verdict.not_objects {unit : α × Distances} (h : p.Verdict n source (.ok unit)) :
    ¬ p.Objects n source := by
  cases h with
  | passed hparse hresolve hlexical =>
    rintro (hlexical' | ⟨errors, hparse'⟩ | ⟨tree, errors, hparse', hresolve'⟩)
    · exact hlexical' hlexical
    · nomatch hparse.symm.trans hparse'
    · obtain rfl := Except.ok.inj (hparse.symm.trans hparse')
      nomatch hresolve.symm.trans hresolve'

end Phases

/-! ## How units end -/

/-- A unit ends as the phase decides that ends it. `action` runs the tree, and `ended` is what came of
the unit. -/
structure EndsByPhase (p : Phases α) (session : Session) (source : String) (action : α → Run β)
    (ended : Outcome β × Session) : Prop where
  /-- It is rejected just if one of the phases before the run finds something wrong. -/
  rejected_iff : (∃ diagnostics, ended.1 = .failed (.rejected diagnostics)) ↔
    p.Objects session.nextId source
  /-- The diagnostics of a rejected unit are those of these phases, and all of them are static. -/
  reported : ∀ diagnostics, ended.1 = .failed (.rejected diagnostics) →
    diagnostics ≠ [] ∧ p.Reports session.nextId source diagnostics ∧
      ∀ diagnostic ∈ diagnostics, diagnostic.isStatic
  /-- What stops a run stops it where nothing was wrong before, and is of another kind. -/
  stopped : ∀ diagnostic, ended.1 = .failed (.stopped diagnostic) →
    ¬ p.Objects session.nextId source ∧ diagnostic.isStatic = false
  /-- The exit code of static diagnostics is that of units that are not run: whatever would run them,
  they end like this. -/
  exitCode_static : (∃ failure, ended.1 = .failed failure ∧ failure.exitCode = 65) ↔
    ∀ other : α → Run β,
      session.perform (check p.parse p.resolve session.nextId source) other = ended
  /-- The other exit codes are those of runs that began and were stopped. -/
  exitCode_stopped :
    (∃ failure, ended.1 = .failed failure ∧ (failure.exitCode = 70 ∨ failure.exitCode = 74)) ↔
      ∃ tree distances diagnostic m,
        (check p.parse p.resolve session.nextId source).result = .ok (tree, distances) ∧
          action tree (session.idle.adopt distances) = .error (.stopped diagnostic) m

theorem Diagnostic.exitCode_of_dynamic {diagnostic : Diagnostic} (h : diagnostic.isStatic = false) :
    diagnostic.exitCode = 70 ∨ diagnostic.exitCode = 74 := by
  cases diagnostic with
  | runtime line fault => exact .inl rfl
  | output message => exact .inr rfl
  | encoding issue => exact .inr rfl
  | _ => nomatch h

section

variable {p : Phases α} {session : Session} {source : String} {action : α → Run β}

/-- What is rejected is rejected whatever would run it. -/
theorem rejected_ends (hp : p.Reasoned) {diagnostics : List Diagnostic}
    (hresult : (check p.parse p.resolve session.nextId source).result = .error diagnostics) :
    EndsByPhase p session source action
      (session.perform (check p.parse p.resolve session.nextId source) action) := by
  have hverdict := p.verdict session.nextId source
  rw [hresult] at hverdict
  obtain ⟨objects, reports, hne⟩ := hverdict.reports hp
  rw [perform_rejected hresult]
  exact {
    rejected_iff := ⟨fun _ => objects, fun _ => ⟨diagnostics, rfl⟩⟩
    reported := by
      rintro _ ⟨⟩
      exact ⟨hne, reports, reports.isStatic⟩
    stopped := nofun
    exitCode_static :=
      ⟨fun _ _ => perform_rejected hresult _, fun _ => ⟨.rejected diagnostics, rfl, rfl⟩⟩
    exitCode_stopped := by
      constructor
      · rintro ⟨_, ⟨⟩, hcode | hcode⟩ <;> nomatch hcode
      · rintro ⟨_, _, _, _, hresult', -⟩
        nomatch hresult.symm.trans hresult' }

/-- It shows in how a unit that passed its checks ends what ran it. -/
theorem runs_of_passed {unit : α × Distances}
    (hresult : (check p.parse p.resolve session.nextId source).result = .ok unit)
    (ended : Outcome β × Session) :
    ¬ ∀ other : α → Run β,
      session.perform (check p.parse p.resolve session.nextId source) other = ended := by
  intro h
  -- two runs that stop in different ways cannot both end like this
  have strays := h fun _ => throw .strayed
  have tires := h fun _ => throw .exhausted
  rw [perform_interrupted hresult rfl] at strays tires
  nomatch strays.trans tires.symm

/-- A unit that passed its checks and was not stopped does not fail. -/
theorem unstopped_ends {tree : α} {distances : Distances}
    (hresult : (check p.parse p.resolve session.nextId source).result = .ok (tree, distances))
    (hquiet : ¬ p.Objects session.nextId source) {ended : Outcome β × Session}
    (hended : ∀ failure, ended.1 ≠ .failed failure)
    (hrun : ∀ diagnostic m, action tree (session.idle.adopt distances) ≠
      .error (.stopped diagnostic) m) :
    EndsByPhase p session source action ended where
  rejected_iff := ⟨fun ⟨_, h⟩ => absurd h (hended _), fun h => absurd h hquiet⟩
  reported diagnostics h := absurd h (hended _)
  stopped diagnostic h := absurd h (hended _)
  exitCode_static :=
    ⟨fun ⟨failure, h, _⟩ => absurd h (hended failure), fun h => absurd h (runs_of_passed hresult _)⟩
  exitCode_stopped := by
    refine ⟨fun ⟨failure, h, _⟩ => absurd h (hended failure), ?_⟩
    rintro ⟨tree', distances', diagnostic, m, hresult', hrun'⟩
    obtain ⟨rfl, rfl⟩ := Prod.mk.inj (Except.ok.inj (hresult.symm.trans hresult'))
    exact absurd hrun' (hrun diagnostic m)

/-- A unit whose run is stopped fails, and not as a rejected one does. -/
theorem stopped_ends {tree : α} {distances : Distances}
    (hresult : (check p.parse p.resolve session.nextId source).result = .ok (tree, distances))
    (hquiet : ¬ p.Objects session.nextId source) {diagnostic : Diagnostic} {m : Machine}
    (hdynamic : diagnostic.isStatic = false)
    (hrun : action tree (session.idle.adopt distances) = .error (.stopped diagnostic) m)
    (after : Session) :
    EndsByPhase p session source action (.failed (.stopped diagnostic), after) where
  rejected_iff := ⟨nofun, fun h => absurd h hquiet⟩
  reported := nofun
  stopped := by
    rintro _ ⟨⟩
    exact ⟨hquiet, hdynamic⟩
  exitCode_static := by
    refine ⟨?_, fun h => absurd h (runs_of_passed hresult _)⟩
    rintro ⟨_, ⟨⟩, hcode⟩
    rcases diagnostic.exitCode_of_dynamic hdynamic with hcode' | hcode' <;>
      nomatch hcode'.symm.trans hcode
  exitCode_stopped :=
    ⟨fun _ => ⟨tree, distances, diagnostic, m, hresult, hrun⟩,
      fun _ => ⟨.stopped diagnostic, rfl, diagnostic.exitCode_of_dynamic hdynamic⟩⟩

/-- A unit that passed its checks ends as its run does. -/
theorem passed_ends {tree : α} {distances : Distances}
    (haction : ∀ {m m' : Machine} {interrupt : Interrupt},
      action tree m = .error interrupt m' → interrupt.IsDynamic)
    (hresult : (check p.parse p.resolve session.nextId source).result = .ok (tree, distances)) :
    EndsByPhase p session source action
      (session.perform (check p.parse p.resolve session.nextId source) action) := by
  have hverdict := p.verdict session.nextId source
  rw [hresult] at hverdict
  have quiet := hverdict.not_objects
  -- an interrupt decides how the unit ends, and only one kind of it is a failure
  cases hrun : action tree (session.idle.adopt distances) with
  | ok b m =>
    rw [perform_done hresult hrun]
    exact unstopped_ends hresult quiet nofun fun _ _ h => nomatch hrun.symm.trans h
  | error interrupt m =>
    rw [perform_interrupted hresult hrun]
    cases interrupt with
    | stopped diagnostic => exact stopped_ends hresult quiet (haction hrun) hrun _
    | strayed | exhausted =>
      exact unstopped_ends hresult quiet nofun fun _ _ h => nomatch hrun.symm.trans h

theorem endsByPhase (hp : p.Reasoned)
    (haction : ∀ {tree : α} {m m' : Machine} {interrupt : Interrupt},
      action tree m = .error interrupt m' → interrupt.IsDynamic) :
    EndsByPhase p session source action
      (session.perform (check p.parse p.resolve session.nextId source) action) := by
  cases hresult : (check p.parse p.resolve session.nextId source).result with
  | error diagnostics => exact rejected_ends hp hresult
  | ok unit => exact passed_ends haction hresult

end

/-! ## The phases that there are -/

/-- A parser that fails has an error to show. -/
theorem Parser.errors_ne_nil {p : Parser α} {n : OccurrenceId} {tokens : List Token}
    {errors : List SyntaxError} (h : (p.run n tokens).result = .error errors) : errors ≠ [] := by
  unfold run at h
  split at h
  · next s _ =>
    by_cases hclean : s.errors = []
    · simp [hclean] at h
    · simp only [List.isEmpty_eq_false_iff.mpr hclean] at h
      obtain rfl := Except.error.inj h
      exact hclean
  · obtain rfl := Except.error.inj h
    simp

/-- A walk that fails has an error to show. -/
theorem Resolution.errors_ne_nil {walk : Walk} {errors : List ScopeError}
    (h : walk.result = .error errors) : errors ≠ [] := by
  unfold Walk.result at h
  by_cases hclean : walk.errors = []
  · simp [hclean] at h
  · simp only [List.isEmpty_eq_false_iff.mpr hclean] at h
    obtain rfl := Except.error.inj h
    exact hclean

theorem Phases.program_reasoned : Phases.program.Reasoned :=
  ⟨Parser.errors_ne_nil, Resolution.errors_ne_nil⟩

theorem Phases.expression_reasoned : Phases.expression.Reasoned :=
  ⟨Parser.errors_ne_nil, Resolution.errors_ne_nil⟩

/-- Units of both kinds end by the phase that ends them, in every session and whatever the source. -/
theorem phases_apart (session : Session) (fuel : Nat) (source : String) :
    EndsByPhase .program session source (Run.interpret fuel) (session.run fuel source) ∧
      EndsByPhase .expression session source (Run.evaluate fuel) (session.evaluate fuel source) :=
  ⟨endsByPhase Phases.program_reasoned Run.interpret_dynamic,
    endsByPhase Phases.expression_reasoned (Run.evaluate_contained fuel _).dynamic⟩

end Lox
