import Lox.Proofs.Syntax.Reading
import Lox.Proofs.Token.Items

/-!
# Declared names

Variables, functions and classes are declared where a list of declarations stands: in a program, a
block or the body of a function. What is read as a branch or as the body of a loop declares nothing,
and no name is the name of the receiver, which is a word of the language
(`wellNamed_of_declarations`).
-/

namespace Lox

/-- The name that a statement declares. -/
def Stmt.declared? : Stmt → Option Token
  | .varDecl name _ => some name
  | .funDecl declaration => some declaration.name
  | .classDecl name _ => some name
  | _ => none

/-- A name that can be declared. -/
def Token.IsFree (token : Token) : Prop := token.lexeme ≠ receiverName

/-- The words among the tokens are of the kinds that their spellings say. -/
def Spelled (ts : List Token) : Prop := ∀ token ∈ ts, token.IsSpelled

theorem spelled_cons {token : Token} {ts : List Token} :
    Spelled (token :: ts) ↔ token.IsSpelled ∧ Spelled ts :=
  List.forall_mem_cons

theorem spelled_append {ts us : List Token} : Spelled (ts ++ us) ↔ Spelled ts ∧ Spelled us :=
  List.forall_mem_append

mutual

/-- All declared names are free, and branches and bodies of loops declare nothing. -/
def Stmt.WellNamed : Stmt → Prop
  | .expression _ | .print _ | .returns _ _ => True
  | .varDecl name _ => name.IsFree
  | .block body => Stmt.WellNamedAll body
  | .ifThen _ thenBranch => thenBranch.declared? = none ∧ thenBranch.WellNamed
  | .ifElse _ thenBranch elseBranch =>
    (thenBranch.declared? = none ∧ thenBranch.WellNamed) ∧
      elseBranch.declared? = none ∧ elseBranch.WellNamed
  | .whileLoop _ body => body.declared? = none ∧ body.WellNamed
  | .funDecl declaration => declaration.name.IsFree ∧ declaration.WellNamed
  | .classDecl name methods => name.IsFree ∧ FunctionDecl.WellNamedAll methods

def FunctionDecl.WellNamed : FunctionDecl → Prop
  | ⟨_, params, body⟩ => (∀ param ∈ params, param.IsFree) ∧ Stmt.WellNamedAll body

def Stmt.WellNamedAll : List Stmt → Prop
  | [] => True
  | first :: more => first.WellNamed ∧ Stmt.WellNamedAll more

def FunctionDecl.WellNamedAll : List FunctionDecl → Prop
  | [] => True
  | first :: more => first.WellNamed ∧ FunctionDecl.WellNamedAll more

end

theorem Stmt.WellNamedAll.of_mem {body : List Stmt} (h : Stmt.WellNamedAll body) {t : Stmt}
    (ht : t ∈ body) : t.WellNamed := by
  induction body with
  | nil => nomatch ht
  | cons first more ih =>
    rcases List.mem_cons.mp ht with rfl | ht
    · exact h.1
    · exact ih h.2 ht

/-! ## What is read is well named -/

theorem names_free {ts names : List Token} :
    ReadsNames ts names → Spelled ts → ∀ name ∈ names, name.IsFree
  | .last h, hts => by
    intro name hname
    rw [List.mem_singleton.mp hname]
    exact (spelled_cons.mp hts).1.lexeme_identifier h
  | .more h _ hmore, hts => by
    simp only [spelled_cons] at hts
    obtain ⟨hname, _, hts⟩ := hts
    exact List.forall_mem_cons.mpr ⟨hname.lexeme_identifier h, names_free hmore hts⟩

theorem parameters_free {ts names : List Token} (h : ReadsParameters ts names)
    (hts : Spelled ts) : ∀ name ∈ names, name.IsFree := by
  cases h with
  | none => simp
  | some h _ => exact names_free h hts

theorem wellNamed_of_variable {n n' : Nat} {ts : List Token} {t : Stmt}
    (h : ReadsVariable n ts t n') (hts : Spelled ts) : t.WellNamed := by
  cases h with
  | bare h _ => exact (spelled_cons.mp hts).1.lexeme_identifier h
  | initialized h _ _ _ => exact (spelled_cons.mp hts).1.lexeme_identifier h

/-- A `for` loop declares nothing outside of itself. -/
theorem Stmt.declared?_forLoop (first : Option Stmt) (condition step : Option Expr) (body : Stmt) :
    (Stmt.forLoop first condition step body).declared? = none := by
  cases first <;> rfl

theorem wellNamed_forLoop {n n' : Nat} {ts : List Token} {first : Option Stmt} {body : Stmt}
    (hfirst : ReadsInitializer n ts first n') (hts : Spelled ts)
    (hbody : body.declared? = none ∧ body.WellNamed) (condition step : Option Expr) :
    (Stmt.forLoop first condition step body).WellNamed := by
  have loop : (Stmt.forLoop none condition step body).WellNamed := by
    cases step with
    | none => exact hbody
    | some step => exact ⟨rfl, hbody.2, trivial, trivial⟩
  cases hfirst with
  | none => exact loop
  | varDecl _ h => exact ⟨wellNamed_of_variable h (spelled_cons.mp hts).2, loop, trivial⟩
  | expression _ _ => exact ⟨trivial, loop, trivial⟩

mutual

theorem wellNamed_of_statement {isOpen : Bool} {n n' : Nat} {ts : List Token} {t : Stmt} :
    ReadsStatement isOpen n ts t n' → Spelled ts → t.declared? = none ∧ t.WellNamed
  | .expression _ _, _ => ⟨rfl, trivial⟩
  | .print _ _ _, _ => ⟨rfl, trivial⟩
  | .returns _ _ _, _ => ⟨rfl, trivial⟩
  | .block _ h _, hts => by
    simp only [List.cons_append, spelled_cons, spelled_append] at hts
    obtain ⟨_, hbody, _⟩ := hts
    have body := wellNamed_of_declarations h hbody
    exact ⟨rfl, body⟩
  | .ifThen _ _ _ _ h, hts => by
    simp only [List.cons_append, spelled_cons, spelled_append] at hts
    obtain ⟨_, _, _, _, hbranch⟩ := hts
    have branch := wellNamed_of_statement h hbranch
    exact ⟨rfl, branch⟩
  | .ifElse _ _ _ _ hthen _ helse, hts => by
    simp only [List.cons_append, List.append_assoc, spelled_cons, spelled_append] at hts
    obtain ⟨_, _, _, _, hfirst, _, hsecond⟩ := hts
    have thenBranch := wellNamed_of_statement hthen hfirst
    have elseBranch := wellNamed_of_statement helse hsecond
    exact ⟨rfl, thenBranch, elseBranch⟩
  | .whileLoop _ _ _ _ h, hts => by
    simp only [List.cons_append, spelled_cons, spelled_append] at hts
    obtain ⟨_, _, _, _, hbody⟩ := hts
    have body := wellNamed_of_statement h hbody
    exact ⟨rfl, body⟩
  | .forLoop _ _ hinitializer _ _ _ _ h, hts => by
    simp only [List.cons_append, List.append_assoc, spelled_cons, spelled_append] at hts
    obtain ⟨_, _, hfirst, _, _, _, _, hbody⟩ := hts
    have body := wellNamed_of_statement h hbody
    exact ⟨Stmt.declared?_forLoop .., wellNamed_forLoop hinitializer hfirst body _ _⟩

theorem wellNamed_of_declaration {isOpen : Bool} {n n' : Nat} {ts : List Token} {t : Stmt} :
    ReadsDeclaration isOpen n ts t n' → Spelled ts → t.WellNamed
  | .statement h, hts => by
    have statement := wellNamed_of_statement h hts
    exact statement.2
  | .varDecl _ h, hts => wellNamed_of_variable h (spelled_cons.mp hts).2
  | .funDecl _ h, hts => by
    have routine := wellNamed_of_routine h (spelled_cons.mp hts).2
    exact routine
  | .classDecl _ hname _ h _, hts => by
    simp only [List.cons_append, spelled_cons, spelled_append] at hts
    obtain ⟨_, hfirst, _, hrest, _⟩ := hts
    have methods := wellNamed_of_routines h hrest
    exact ⟨hfirst.lexeme_identifier hname, methods⟩

/-- Declarations that are read are well named. -/
theorem wellNamed_of_declarations {n n' : Nat} {ts : List Token} {body : List Stmt} :
    ReadsDeclarations n ts body n' → Spelled ts → Stmt.WellNamedAll body
  | .nil, _ => trivial
  | .cons h hmore, hts => by
    have first := wellNamed_of_declaration h (spelled_append.mp hts).1
    have more := wellNamed_of_declarations hmore (spelled_append.mp hts).2
    exact ⟨first, more⟩

theorem wellNamed_of_routine {n n' : Nat} {ts : List Token} {f : FunctionDecl} :
    ReadsRoutine n ts f n' → Spelled ts → f.name.IsFree ∧ f.WellNamed
  | .intro hname _ hparams _ _ h _, hts => by
    simp only [List.cons_append, List.append_assoc, spelled_cons, spelled_append] at hts
    obtain ⟨hfirst, _, hbetween, _, _, hbody, _⟩ := hts
    have body := wellNamed_of_declarations h hbody
    exact ⟨hfirst.lexeme_identifier hname, parameters_free hparams hbetween, body⟩

theorem wellNamed_of_routines {n n' : Nat} {ts : List Token} {fs : List FunctionDecl} :
    ReadsRoutines n ts fs n' → Spelled ts → FunctionDecl.WellNamedAll fs
  | .nil, _ => trivial
  | .cons h hmore, hts => by
    have first := wellNamed_of_routine h (spelled_append.mp hts).1
    have more := wellNamed_of_routines hmore (spelled_append.mp hts).2
    exact ⟨first.2, more⟩

end

end Lox
