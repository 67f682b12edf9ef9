import Lox.Proofs.Renaming.Walk

/-!
# A program and the same program with other names are twins

An occurrence that is called as in the scope that it is bound to has the distance that it had, and so
the two programs are twins, also if they are relabeled alike (`Stmt.RespeltAll.twins`). A read of a name
that is called otherwise finds its variable only where it is there, so that has to be promised.
-/

namespace Lox

open Renaming Resolution

/-- Twins with the same occurrences on the same lines, where what is read is there. -/
structure Tie.Level (tie : Tie) (r : Relabeling) : Prop where
  line : tie.Relines r r
  right : tie.right = tie.left
  guards : tie.Guards

section

variable {tie : Tie} {r : Relabeling} {s : Respelling} {n : OccurrenceId}

theorem Tie.Occurs.respelt (hlevel : tie.Level r) {scopes : List Scope} {ρs : List Renaming}
    (hlength : ρs.length = scopes.length) {role : Occurrence.Role} {id : OccurrenceId}
    {token token' : Token}
    (hcalled : token'.lexeme = Respelling.calledAt ρs (s.distance? id) token.lexeme)
    (hsame : token'.line = token.line)
    (hbound : Occurrence.Bound (s.record n) scopes ⟨role, id, token⟩)
    (h : Occurrence.Bound tie.left scopes ⟨role, r.id id, r.token token⟩) :
    tie.Occurs ρs ⟨role, r.id id, r.token token⟩ ⟨role, r.id id, r.token token'⟩ := by
  have recorded : tie.left.distance? (r.id id) = s.distance? id :=
    h.recorded.trans hbound.recorded.symm
  refine ⟨h.numbered, ?_, ?_, ?_, ?_, ?_, h.free, fun _ => .inr hlevel.guards⟩
  · rw [hlevel.right]
    exact h.numbered
  · rw [hlevel.right]
  · show tie.line (r.line token.line) (r.line token'.line)
    rw [hsame]
    exact hlevel.line token.line
  · intro hnone
    rw [recorded] at hnone
    rw [hnone] at hcalled
    exact hcalled
  · intro d hd
    rw [recorded] at hd
    have within : d < ρs.length := by
      have found := hbound.recorded.symm.trans hd
      rw [List.findIdx?_eq_some_iff_getElem] at found
      exact hlength ▸ found.1
    refine ⟨ρs[d], List.getElem?_eq_getElem within, hcalled.trans ?_⟩
    rw [hd, Respelling.calledAt, Option.elim_some, List.getElem?_eq_getElem within]
    rfl

/-- The receiver is a twin of its own. -/
theorem Tie.Occurs.receiver (hlevel : tie.Level r) {scopes : List Scope} {ρs : List Renaming}
    (hlength : ρs.length = scopes.length) {id : OccurrenceId} {keyword : Token}
    (hbound : Occurrence.Bound (s.record n) scopes ⟨.receiver, id, keyword⟩)
    (h : Occurrence.Bound tie.left scopes ⟨.receiver, r.id id, r.token keyword⟩) :
    tie.Occurs ρs ⟨.receiver, r.id id, r.token keyword⟩ ⟨.receiver, r.id id, r.token keyword⟩ := by
  have name : keyword.lexeme = receiverName := hbound.spelled.mp rfl
  refine .respelt hlevel hlength ?_ rfl hbound h
  rw [name, Respelling.calledAt_receiver]

/-! ## Expressions -/

mutual

theorem Expr.respell_twin (hlevel : tie.Level r) {scopes : List Scope} {ρs : List Renaming}
    (hlength : ρs.length = scopes.length) : (e : Expr) → e.Bound (s.record n) scopes →
    (e.relabel r).Bound tie.left scopes →
      (e.relabel r).Twin tie ρs ((e.respell (s.spelled ρs)).relabel r)
  | .literal _, _, _ => .literal
  | .grouping inner, hbound, h => .grouping (Expr.respell_twin hlevel hlength inner hbound h)
  | .unary operator operand, hbound, h =>
    .unary (Tie.alike_relabel hlevel.line operator)
      (Expr.respell_twin hlevel hlength operand hbound h)
  | .binary left operator right, hbound, h => by
    obtain ⟨boundLeft, boundRight⟩ := List.forall_mem_append.mp hbound
    obtain ⟨hleft, hright⟩ := List.forall_mem_append.mp h
    exact .binary (Expr.respell_twin hlevel hlength left boundLeft hleft)
      (Tie.alike_relabel hlevel.line operator)
      (Expr.respell_twin hlevel hlength right boundRight hright)
  | .logical left operator right, hbound, h => by
    obtain ⟨boundLeft, boundRight⟩ := List.forall_mem_append.mp hbound
    obtain ⟨hleft, hright⟩ := List.forall_mem_append.mp h
    exact .logical (Expr.respell_twin hlevel hlength left boundLeft hleft)
      (Tie.alike_relabel hlevel.line operator)
      (Expr.respell_twin hlevel hlength right boundRight hright)
  | .var _ _, hbound, h =>
    .var (.respelt hlevel hlength rfl rfl (hbound _ (List.mem_singleton_self _))
      (h _ (List.mem_singleton_self _)))
  | .assign _ _ value, hbound, h => by
    obtain ⟨boundName, boundValue⟩ := List.forall_mem_cons.mp hbound
    obtain ⟨hname, hvalue⟩ := List.forall_mem_cons.mp h
    exact .assign (.respelt hlevel hlength rfl rfl boundName hname)
      (Expr.respell_twin hlevel hlength value boundValue hvalue)
  | .call callee paren arguments, hbound, h => by
    obtain ⟨boundCallee, boundArguments⟩ := List.forall_mem_append.mp hbound
    obtain ⟨hcallee, harguments⟩ := List.forall_mem_append.mp h
    exact .call (Expr.respell_twin hlevel hlength callee boundCallee hcallee)
      (Tie.alike_relabel hlevel.line paren)
      (Expr.respellAll_twins hlevel hlength arguments boundArguments harguments)
  | .get object name, hbound, h =>
    .get (Expr.respell_twin hlevel hlength object hbound h) (Tie.alike_relabel hlevel.line name)
  | .set object name value, hbound, h => by
    obtain ⟨boundObject, boundValue⟩ := List.forall_mem_append.mp hbound
    obtain ⟨hobject, hvalue⟩ := List.forall_mem_append.mp h
    exact .set (Expr.respell_twin hlevel hlength object boundObject hobject)
      (Tie.alike_relabel hlevel.line name)
      (Expr.respell_twin hlevel hlength value boundValue hvalue)
  | .this _ _, hbound, h =>
    .this (.receiver hlevel hlength (hbound _ (List.mem_singleton_self _))
      (h _ (List.mem_singleton_self _)))

theorem Expr.respellAll_twins (hlevel : tie.Level r) {scopes : List Scope} {ρs : List Renaming}
    (hlength : ρs.length = scopes.length) : (es : List Expr) →
    (∀ o ∈ Expr.occurrencesIn es, o.Bound (s.record n) scopes) →
    (∀ o ∈ Expr.occurrencesIn (Expr.relabelAll r es), o.Bound tie.left scopes) →
      Expr.TwinAll tie ρs (Expr.relabelAll r es)
        (Expr.relabelAll r (Expr.respellAll (s.spelled ρs) es))
  | [], _, _ => .nil
  | first :: more, hbound, h => by
    obtain ⟨boundFirst, boundMore⟩ := List.forall_mem_append.mp hbound
    obtain ⟨hfirst, hmore⟩ := List.forall_mem_append.mp h
    exact .cons (Expr.respell_twin hlevel hlength first boundFirst hfirst)
      (Expr.respellAll_twins hlevel hlength more boundMore hmore)

end

theorem Expr.respell_twin_ifAny (hlevel : tie.Level r) {scopes : List Scope}
    {ρs : List Renaming} (hlength : ρs.length = scopes.length) (value : Option Expr)
    (hbound : Expr.BoundIfAny (s.record n) scopes value)
    (h : Expr.BoundIfAny tie.left scopes (value.map (Expr.relabel r))) :
    Option.Rel (Expr.Twin tie ρs) (value.map (Expr.relabel r))
      ((value.map (Expr.respell (s.spelled ρs))).map (Expr.relabel r)) := by
  cases value with
  | none => exact .none
  | some value => exact .some (Expr.respell_twin hlevel hlength value hbound h)

/-! ## Statements -/

theorem FunctionDecl.relabel_name (f : FunctionDecl) : (f.relabel r).name = r.token f.name := by
  cases f
  rfl

mutual

/-- A statement and the same statement with its names called otherwise are twins. -/
theorem Stmt.Respelt.twin (hlevel : tie.Level r) {scopes : List Scope} {ρs : List Renaming}
    {t t' : Stmt} (hlength : ρs.length = scopes.length) : t.Respelt s ρs t' →
    t.Bound (s.record n) scopes → (t.relabel r).Bound tie.left scopes →
      (t.relabel r).Twin tie ρs (t'.relabel r)
  | .expression rfl, hbound, h => .expression (Expr.respell_twin hlevel hlength _ hbound h)
  | .print rfl, hbound, h => .print (Expr.respell_twin hlevel hlength _ hbound h)
  | @Stmt.Respelt.varDecl _ _ name _ value _ rfl rfl, hbound, h => by
    have inside : ρs.length = (declaring name.lexeme scopes).length := by
      rw [hlength, length_declaring]
    have initializer := Expr.respell_twin_ifAny hlevel inside value hbound.2 h.2
    exact .varDecl ⟨rfl, hbound.1⟩ initializer
  | .block ρ _ hbody, hbound, h => by
    have inside : (ρ :: ρs).length = (.empty :: scopes : List Scope).length :=
      congrArg Nat.succ hlength
    have twins := Stmt.RespeltAll.twins hlevel inside hbody hbound h
    exact .block ρ twins
  | .ifThen rfl hbranch, hbound, h => by
    have branch := Stmt.Respelt.twin hlevel hlength hbranch hbound.2.2 h.2.2
    exact .ifThen (Expr.respell_twin hlevel hlength _ hbound.1 h.1) branch
  | .ifElse rfl hfirst hsecond, hbound, h => by
    have first := Stmt.Respelt.twin hlevel hlength hfirst hbound.2.1.2 h.2.1.2
    have second := Stmt.Respelt.twin hlevel hlength hsecond hbound.2.2.2 h.2.2.2
    exact .ifElse (Expr.respell_twin hlevel hlength _ hbound.1 h.1) first second
  | .whileLoop rfl hbody, hbound, h => by
    have body := Stmt.Respelt.twin hlevel hlength hbody hbound.2.2 h.2.2
    exact .whileLoop (Expr.respell_twin hlevel hlength _ hbound.1 h.1) body
  | @Stmt.Respelt.funDecl _ _ f f' hname hf, hbound, h => by
    have inside : ρs.length = (introducing scopes f.name).length := by
      rw [hlength, length_introducing]
    have hinside := h.2
    rw [FunctionDecl.relabel_name] at hinside
    have twin := FunctionDecl.Respelt.twin hlevel inside hf hbound.2 hinside
    refine .funDecl ?_ twin
    rw [FunctionDecl.relabel_name, FunctionDecl.relabel_name, hf.name_eq]
    exact ⟨hname.symm, hbound.1⟩
  | .returns rfl, hbound, h => .returns (Expr.respell_twin_ifAny hlevel hlength _ hbound h)
  | @Stmt.Respelt.classDecl _ _ name _ _ hname hmethods, hbound, h => by
    have inside : (same :: ρs).length = (classScope :: introducing scopes name).length := by
      rw [List.length_cons, List.length_cons, hlength, length_introducing]
    have twins := FunctionDecl.RespeltAll.twins hlevel inside hmethods hbound.2 h.2
    exact .classDecl ⟨hname.symm, hbound.1⟩ rfl twins

theorem FunctionDecl.Respelt.twin (hlevel : tie.Level r) {scopes : List Scope}
    {ρs : List Renaming} {f f' : FunctionDecl} (hlength : ρs.length = scopes.length) :
    f.Respelt s ρs f' → f.Bound (s.record n) scopes → (f.relabel r).Bound tie.left scopes →
      (f.relabel r).Twin tie ρs (f'.relabel r)
  | @FunctionDecl.Respelt.intro _ _ name params _ body _ ρ _ rfl hbody, hbound, h => by
    have inside : (ρ :: ρs).length = (params.foldl introducing (.empty :: scopes)).length := by
      rw [length_parameters, List.length_cons, List.length_cons, hlength]
    have hinside := h.2
    rw [parameters_relabel] at hinside
    have twins := Stmt.RespeltAll.twins hlevel inside hbody hbound.2 hinside
    refine .intro ρ (Tie.alike_relabel hlevel.line name) ?_ twins
    rw [List.map_map, List.forall₂_map_left_iff, List.forall₂_map_right_iff, List.forall₂_same]
    exact fun param hparam => ⟨rfl, hbound.1 param hparam⟩

/-- A program and the same program with its names called otherwise are twins. -/
theorem Stmt.RespeltAll.twins (hlevel : tie.Level r) {scopes : List Scope} {ρs : List Renaming}
    {body body' : List Stmt} (hlength : ρs.length = scopes.length) :
    Stmt.RespeltAll s ρs body body' → Stmt.BoundAll (s.record n) scopes body →
    Stmt.BoundAll tie.left scopes (Stmt.relabelAll r body) →
      Stmt.TwinAll tie ρs (Stmt.relabelAll r body) (Stmt.relabelAll r body')
  | .nil, _, _ => .nil
  | @Stmt.RespeltAll.cons _ _ first _ _ _ hfirst hmore, hbound, h => by
    have behind := h.2
    rw [after_relabel] at behind
    have length : ρs.length = (first.after scopes).length := by rw [hlength, length_after]
    have twin := Stmt.Respelt.twin hlevel hlength hfirst hbound.1 h.1
    have twins := Stmt.RespeltAll.twins hlevel length hmore hbound.2 behind
    exact .cons twin twins

theorem FunctionDecl.RespeltAll.twins (hlevel : tie.Level r) {scopes : List Scope}
    {ρs : List Renaming} {fs fs' : List FunctionDecl} (hlength : ρs.length = scopes.length) :
    FunctionDecl.RespeltAll s ρs fs fs' → FunctionDecl.BoundAll (s.record n) scopes fs →
    FunctionDecl.BoundAll tie.left scopes (FunctionDecl.relabelAll r fs) →
      FunctionDecl.TwinAll tie ρs (FunctionDecl.relabelAll r fs) (FunctionDecl.relabelAll r fs')
  | .nil, _, _ => .nil
  | .cons hfirst hmore, hbound, h => by
    have twin := FunctionDecl.Respelt.twin hlevel hlength hfirst hbound.1 h.1
    have twins := FunctionDecl.RespeltAll.twins hlevel hlength hmore hbound.2 h.2
    exact .cons twin twins

end

end

end Lox
