import Lox.Proofs.Syntax.Naming
import Lox.Proofs.Syntax.Numbering

/-!
# Names that do not occur

A tree avoids a name if nothing in it is declared or looked up under this name. What is read from tokens
avoids all names that no token has (`avoids_of_declarations`).
-/

namespace Lox

/-- No token has this text. -/
def Without (name : String) (ts : List Token) : Prop := ∀ token ∈ ts, token.lexeme ≠ name

theorem without_cons {name : String} {token : Token} {ts : List Token} :
    Without name (token :: ts) ↔ token.lexeme ≠ name ∧ Without name ts :=
  List.forall_mem_cons

theorem without_append {name : String} {ts us : List Token} :
    Without name (ts ++ us) ↔ Without name ts ∧ Without name us :=
  List.forall_mem_append

/-- Nothing is looked up under this name. -/
def Expr.Avoids (name : String) (e : Expr) : Prop := ∀ o ∈ e.occurrences, o.token.lexeme ≠ name

/-- Nothing is looked up under this name in an expression that may be missing. -/
def Expr.AvoidsIfAny (name : String) (value : Option Expr) : Prop :=
  ∀ o ∈ Expr.occurrencesOf value, o.token.lexeme ≠ name

mutual

/-- Nothing is declared or looked up under this name. -/
def Stmt.Avoids (name : String) : Stmt → Prop
  | .expression value | .print value => value.Avoids name
  | .varDecl declared value => declared.lexeme ≠ name ∧ Expr.AvoidsIfAny name value
  | .block body => Stmt.AvoidsAll name body
  | .ifThen condition thenBranch => condition.Avoids name ∧ thenBranch.Avoids name
  | .ifElse condition thenBranch elseBranch =>
    condition.Avoids name ∧ thenBranch.Avoids name ∧ elseBranch.Avoids name
  | .whileLoop condition body => condition.Avoids name ∧ body.Avoids name
  | .funDecl declaration => declaration.name.lexeme ≠ name ∧ declaration.Avoids name
  | .returns _ value => Expr.AvoidsIfAny name value
  | .classDecl declared methods => declared.lexeme ≠ name ∧ FunctionDecl.AvoidsAll name methods

def FunctionDecl.Avoids (name : String) : FunctionDecl → Prop
  | ⟨_, params, body⟩ => (∀ param ∈ params, param.lexeme ≠ name) ∧ Stmt.AvoidsAll name body

def Stmt.AvoidsAll (name : String) : List Stmt → Prop
  | [] => True
  | first :: more => first.Avoids name ∧ Stmt.AvoidsAll name more

def FunctionDecl.AvoidsAll (name : String) : List FunctionDecl → Prop
  | [] => True
  | first :: more => first.Avoids name ∧ FunctionDecl.AvoidsAll name more

end

/-! ## What is read from tokens without a name avoids it -/

section

variable {name : String} {n n' : Nat} {ts : List Token}

theorem avoids_of_reads {e : Expr} (h : ReadsExpr .whole n ts e n') (hts : Without name ts) :
    e.Avoids name := by
  have numbered : Numbered .. := numbered_of_reads h
  intro o ho
  exact hts _ (numbered.written o ho).1

theorem avoids_of_optional {value : Option Expr} (h : ReadsOptional n ts value n')
    (hts : Without name ts) : Expr.AvoidsIfAny name value := by
  intro o ho
  exact hts _ ((numbered_of_optional h).written o ho).1

theorem avoids_of_names {ts names : List Token} :
    ReadsNames ts names → Without name ts → ∀ param ∈ names, param.lexeme ≠ name
  | .last _, hts => by
    intro param hparam
    rw [List.mem_singleton.mp hparam]
    exact (without_cons.mp hts).1
  | .more _ _ hmore, hts => by
    simp only [without_cons] at hts
    exact List.forall_mem_cons.mpr ⟨hts.1, avoids_of_names hmore hts.2.2⟩

theorem avoids_of_parameters {names : List Token} (h : ReadsParameters ts names)
    (hts : Without name ts) : ∀ param ∈ names, param.lexeme ≠ name := by
  cases h with
  | none => exact List.forall_mem_nil _
  | some h _ => exact avoids_of_names h hts

theorem avoids_of_variable {t : Stmt} (h : ReadsVariable n ts t n') (hts : Without name ts) :
    t.Avoids name := by
  cases h with
  | bare _ _ => exact ⟨(without_cons.mp hts).1, List.forall_mem_nil _⟩
  | initialized _ _ h _ =>
    simp only [List.cons_append, without_cons, without_append] at hts
    obtain ⟨hname, _, hvalue, _⟩ := hts
    exact ⟨hname, avoids_of_reads h hvalue⟩

theorem avoids_of_initializer {first : Option Stmt} (h : ReadsInitializer n ts first n')
    (hts : Without name ts) : ∀ t ∈ first, t.Avoids name := by
  cases h with
  | none _ => nofun
  | varDecl _ h =>
    rintro _ ⟨⟩
    exact avoids_of_variable h (without_cons.mp hts).2
  | expression h _ =>
    rintro _ ⟨⟩
    exact avoids_of_reads h (without_append.mp hts).1

theorem avoids_forLoop {first : Option Stmt} {condition step : Option Expr} {body : Stmt}
    (hfirst : ∀ t ∈ first, t.Avoids name) (hcondition : Expr.AvoidsIfAny name condition)
    (hstep : Expr.AvoidsIfAny name step) (hbody : body.Avoids name) :
    (Stmt.forLoop first condition step body).Avoids name := by
  have test : (condition.getD (.literal (.boolean true))).Avoids name := by
    cases condition with
    | none => exact List.forall_mem_nil _
    | some condition => exact hcondition
  have loop : (Stmt.forLoop none condition step body).Avoids name := by
    cases step with
    | none => exact ⟨test, hbody⟩
    | some step => exact ⟨test, hbody, hstep, trivial⟩
  cases first with
  | none => exact loop
  | some first => exact ⟨hfirst first rfl, loop, trivial⟩

end

section

variable {name : String}

mutual

theorem avoids_of_statement {isOpen : Bool} {n n' : Nat} {ts : List Token} {t : Stmt} :
    ReadsStatement isOpen n ts t n' → Without name ts → t.Avoids name
  | .expression h _, hts => avoids_of_reads h (without_append.mp hts).1
  | .print _ h _, hts => by
    simp only [List.cons_append, without_cons, without_append] at hts
    exact avoids_of_reads h hts.2.1
  | .returns _ h _, hts => by
    simp only [List.cons_append, without_cons, without_append] at hts
    exact avoids_of_optional h hts.2.1
  | .block _ h _, hts => by
    simp only [List.cons_append, without_cons, without_append] at hts
    have body := avoids_of_declarations h hts.2.1
    exact body
  | .ifThen _ _ hcondition _ hbranch, hts => by
    simp only [List.cons_append, without_cons, without_append] at hts
    obtain ⟨_, _, htest, _, hrest⟩ := hts
    have branch := avoids_of_statement hbranch hrest
    exact ⟨avoids_of_reads hcondition htest, branch⟩
  | .ifElse _ _ hcondition _ hthen _ helse, hts => by
    simp only [List.cons_append, List.append_assoc, without_cons, without_append] at hts
    obtain ⟨_, _, htest, _, hfirst, _, hsecond⟩ := hts
    have thenBranch := avoids_of_statement hthen hfirst
    have elseBranch := avoids_of_statement helse hsecond
    exact ⟨avoids_of_reads hcondition htest, thenBranch, elseBranch⟩
  | .whileLoop _ _ hcondition _ hbody, hts => by
    simp only [List.cons_append, without_cons, without_append] at hts
    obtain ⟨_, _, htest, _, hrest⟩ := hts
    have body := avoids_of_statement hbody hrest
    exact ⟨avoids_of_reads hcondition htest, body⟩
  | .forLoop _ _ hinitializer hcondition _ hstep _ hbody, hts => by
    simp only [List.cons_append, List.append_assoc, without_cons, without_append] at hts
    obtain ⟨_, _, hfirst, htest, _, hround, _, hrest⟩ := hts
    have body := avoids_of_statement hbody hrest
    exact avoids_forLoop (avoids_of_initializer hinitializer hfirst)
      (avoids_of_optional hcondition htest) (avoids_of_optional hstep hround) body

theorem avoids_of_declaration {isOpen : Bool} {n n' : Nat} {ts : List Token} {t : Stmt} :
    ReadsDeclaration isOpen n ts t n' → Without name ts → t.Avoids name
  | .statement h, hts => avoids_of_statement h hts
  | .varDecl _ h, hts => avoids_of_variable h (without_cons.mp hts).2
  | .funDecl _ h, hts => by
    have routine := avoids_of_routine h (without_cons.mp hts).2
    exact routine
  | .classDecl _ _ _ h _, hts => by
    simp only [List.cons_append, without_cons, without_append] at hts
    obtain ⟨_, hname, _, hrest, _⟩ := hts
    have methods := avoids_of_routines h hrest
    exact ⟨hname, methods⟩

/-- What is read from tokens without a name avoids it. -/
theorem avoids_of_declarations {n n' : Nat} {ts : List Token} {body : List Stmt} :
    ReadsDeclarations n ts body n' → Without name ts → Stmt.AvoidsAll name body
  | .nil, _ => trivial
  | .cons h hmore, hts => by
    have first := avoids_of_declaration h (without_append.mp hts).1
    have more := avoids_of_declarations hmore (without_append.mp hts).2
    exact ⟨first, more⟩

theorem avoids_of_routine {n n' : Nat} {ts : List Token} {f : FunctionDecl} :
    ReadsRoutine n ts f n' → Without name ts → f.name.lexeme ≠ name ∧ f.Avoids name
  | .intro _ _ hparams _ _ h _, hts => by
    simp only [List.cons_append, List.append_assoc, without_cons, without_append] at hts
    obtain ⟨hname, _, hbetween, _, _, hbody, _⟩ := hts
    have body := avoids_of_declarations h hbody
    exact ⟨hname, avoids_of_parameters hparams hbetween, body⟩

theorem avoids_of_routines {n n' : Nat} {ts : List Token} {fs : List FunctionDecl} :
    ReadsRoutines n ts fs n' → Without name ts → FunctionDecl.AvoidsAll name fs
  | .nil, _ => trivial
  | .cons h hmore, hts => by
    have first := avoids_of_routine h (without_append.mp hts).1
    have more := avoids_of_routines hmore (without_append.mp hts).2
    exact ⟨first.2, more⟩

end

end

end Lox
