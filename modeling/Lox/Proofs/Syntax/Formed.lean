import Lox.Proofs.Parser.Program
import Lox.Proofs.Session.Admission

/-!
# Well-formed trees

The parser builds trees out of tokens of the right kinds only: operators where operators stand, names
that are no words of the language, and lists that are not too long (`Expr.Formed`, `Stmt.Formed`). The
types of trees do not say so, and the evaluator has a fault for operators that are none; but a tree
that is read is well formed (`formed_of_parseProgram`, `formed_of_parseExpression`).
-/

namespace Lox

/-! ## Tokens -/

namespace Token

/-- A name that is no word of the language. -/
structure IsName (token : Token) : Prop where
  identifier : token.kind = .identifier
  unreserved : Keyword.ofSpelling? token.lexeme = none

/-- An operator before its operand. -/
def IsUnary (token : Token) : Prop := token.kind ∈ [.symbol .bang, .symbol .minus]

/-- An operator between operands that are both evaluated. -/
def IsBinary (token : Token) : Prop :=
  token.kind ∈ [.symbol .equalEqual, .symbol .bangEqual, .symbol .greater, .symbol .greaterEqual,
    .symbol .less, .symbol .lessEqual, .symbol .minus, .symbol .plus, .symbol .slash, .symbol .star]

/-- An operator that may decide after its left operand. -/
def IsLogical (token : Token) : Prop := token.kind ∈ [.keyword .andKw, .keyword .orKw]

/-- What is written as an identifier is no word of the language. -/
theorem IsSpelled.isName {token : Token} (h : token.IsSpelled) (hkind : token.kind = .identifier) :
    token.IsName := by
  refine ⟨hkind, ?_⟩
  have spelled := h (hkind ▸ trivial)
  rw [hkind, Segment.wordKind] at spelled
  split at spelled
  · cases spelled
  · assumption

/-- The name of the receiver is a word of the language. -/
theorem IsName.isFree {token : Token} (h : token.IsName) : token.IsFree := by
  intro hreceiver
  have unreserved := h.unreserved
  rw [hreceiver] at unreserved
  exact absurd unreserved (by decide)

end Token

/-! ## Trees -/

mutual

/-- Operators, names and `this` are what they stand for, and no call has too many arguments. -/
def Expr.Formed : Expr → Prop
  | .literal _ => True
  | .grouping inner => inner.Formed
  | .unary operator operand => operator.IsUnary ∧ operand.Formed
  | .binary left operator right => operator.IsBinary ∧ left.Formed ∧ right.Formed
  | .logical left operator right => operator.IsLogical ∧ left.Formed ∧ right.Formed
  | .var _ name => name.IsName
  | .assign _ name value => name.IsName ∧ value.Formed
  | .call callee _ arguments => callee.Formed ∧ arguments.length ≤ 8 ∧ Expr.FormedAll arguments
  | .get object name => name.IsName ∧ object.Formed
  | .set object name value => name.IsName ∧ object.Formed ∧ value.Formed
  | .this _ keyword => keyword.kind = .keyword .thisKw

def Expr.FormedAll : List Expr → Prop
  | [] => True
  | first :: more => first.Formed ∧ Expr.FormedAll more

end

/-- An expression that may be missing is well formed. -/
def Expr.FormedIfAny (value : Option Expr) : Prop := ∀ e ∈ value, e.Formed

mutual

/-- All that is declared has a name, no function has too many parameters, and what is in the statement
is well formed. -/
def Stmt.Formed : Stmt → Prop
  | .expression value | .print value => value.Formed
  | .varDecl name initializer => name.IsName ∧ Expr.FormedIfAny initializer
  | .block body => Stmt.FormedAll body
  | .ifThen condition thenBranch => condition.Formed ∧ thenBranch.Formed
  | .ifElse condition thenBranch elseBranch =>
    condition.Formed ∧ thenBranch.Formed ∧ elseBranch.Formed
  | .whileLoop condition body => condition.Formed ∧ body.Formed
  | .funDecl declaration => declaration.Formed
  | .returns _ value => Expr.FormedIfAny value
  | .classDecl name methods => name.IsName ∧ FunctionDecl.FormedAll methods

def FunctionDecl.Formed : FunctionDecl → Prop
  | ⟨name, params, body⟩ =>
    name.IsName ∧ params.length ≤ 8 ∧ (∀ param ∈ params, param.IsName) ∧ Stmt.FormedAll body

def Stmt.FormedAll : List Stmt → Prop
  | [] => True
  | first :: more => first.Formed ∧ Stmt.FormedAll more

def FunctionDecl.FormedAll : List FunctionDecl → Prop
  | [] => True
  | first :: more => first.Formed ∧ FunctionDecl.FormedAll more

end

theorem Expr.FormedAll.mem {es : List Expr} (h : Expr.FormedAll es) : ∀ e ∈ es, e.Formed := by
  induction es with
  | nil => exact nofun
  | cons first more ih => exact List.forall_mem_cons.mpr ⟨h.1, ih h.2⟩

theorem Stmt.FormedAll.mem {body : List Stmt} (h : Stmt.FormedAll body) : ∀ t ∈ body, t.Formed := by
  induction body with
  | nil => exact nofun
  | cons first more ih => exact List.forall_mem_cons.mpr ⟨h.1, ih h.2⟩

theorem FunctionDecl.FormedAll.mem {fs : List FunctionDecl} (h : FunctionDecl.FormedAll fs) :
    ∀ f ∈ fs, f.Formed := by
  induction fs with
  | nil => exact nofun
  | cons first more ih => exact List.forall_mem_cons.mpr ⟨h.1, ih h.2⟩

/-! ## Expressions that are read -/

/-- The trees of a tier are well formed if both operands are. -/
def Parser.Tier.Forms (tier : Parser.Tier) : Prop :=
  ∀ left operator right, tier.operators.contains operator.kind = true → left.Formed →
    right.Formed → (tier.node left operator right).Formed

theorem tiers_form : ∀ tier ∈ Parser.tiers, tier.Forms := by
  have logical {kind : TokenKind} (hkind : kind ∈ [.keyword .andKw, .keyword .orKw]) :
      Parser.Tier.Forms ⟨[kind], .logical⟩ := by
    intro left operator right hoperator hleft hright
    have same : operator.kind = kind := by simpa using hoperator
    rw [← same] at hkind
    exact ⟨hkind, hleft, hright⟩
  have binary {kinds : List TokenKind} (hkinds : kinds ⊆ [.symbol .equalEqual, .symbol .bangEqual,
      .symbol .greater, .symbol .greaterEqual, .symbol .less, .symbol .lessEqual, .symbol .minus,
      .symbol .plus, .symbol .slash, .symbol .star]) : Parser.Tier.Forms ⟨kinds, .binary⟩ := by
    intro left operator right hoperator hleft hright
    exact ⟨hkinds (List.contains_iff_mem.mp hoperator), hleft, hright⟩
  simp only [Parser.tiers, List.forall_mem_cons]
  exact ⟨logical (by simp), logical (by simp), binary (by simp), binary (by simp), binary (by simp),
    binary (by simp), nofun⟩

/-- What is read by a rule is well formed, if the operators make it so. -/
def FormedBy : ExprRule → Expr → Prop
  | .climb tiers, e => (∀ tier ∈ tiers, tier.Forms) → e.Formed
  | _, e => e.Formed

mutual

/-- An expression that is read from words as they are spelled is well formed. -/
theorem formed_of_reads {rule : ExprRule} {n n' : Nat} {ts : List Token} {e : Expr} :
    ReadsExpr rule n ts e n' → Spelled ts → FormedBy rule e
  | .literal _, _ => trivial
  | .this h, _ => h
  | .var h, hts => (spelled_cons.mp hts).1.isName h
  | .grouping _ hinner _, hts => by
    simp only [List.cons_append, spelled_cons, spelled_append] at hts
    have inner := formed_of_reads hinner hts.2.1
    exact inner
  | .primary h, hts => by
    have operand := formed_of_reads h hts
    exact operand
  | .call hcallee _ harguments _, hts => by
    simp only [List.append_assoc, List.cons_append, spelled_cons, spelled_append] at hts
    have callee := formed_of_reads hcallee hts.1
    have arguments := formed_of_arguments harguments hts.2.2.1
    exact ⟨callee, arguments⟩
  | .get hobject _ hname, hts => by
    simp only [spelled_cons, spelled_append] at hts
    have object := formed_of_reads hobject hts.1
    exact ⟨hts.2.2.1.isName hname, object⟩
  | .applied h, hts => by
    have operand := formed_of_reads h hts
    exact operand
  | .unary hoperator h, hts => by
    have operand := formed_of_reads h (spelled_cons.mp hts).2
    exact ⟨by simpa [Parser.isPrefixOperator, Token.IsUnary] using hoperator, operand⟩
  | .prefixed h, hts => fun _ => by
    have operand := formed_of_reads h hts
    exact operand
  | .operand h, hts => fun hforms => by
    have operand := formed_of_reads h hts
    exact operand (List.forall_mem_cons.mp hforms).2
  | .operator hleft hoperator hright, hts => fun hforms => by
    simp only [spelled_cons, spelled_append] at hts
    have left := formed_of_reads hleft hts.1 hforms
    have right := formed_of_reads hright hts.2.2 (List.forall_mem_cons.mp hforms).2
    exact (List.forall_mem_cons.mp hforms).1 _ _ _ hoperator left right
  | .loosest h, hts => by
    have operand := formed_of_reads h hts tiers_form
    exact operand
  | .assign htarget _ hvalue, hts => by
    simp only [spelled_cons, spelled_append] at hts
    have target := formed_of_reads htarget hts.1 tiers_form
    have value := formed_of_reads hvalue hts.2.2
    exact ⟨target, value⟩
  | .set htarget _ hvalue, hts => by
    simp only [spelled_cons, spelled_append] at hts
    have target := formed_of_reads htarget hts.1 tiers_form
    have value := formed_of_reads hvalue hts.2.2
    exact ⟨target.1, target.2, value⟩

theorem formed_of_arguments {n n' : Nat} {ts : List Token} {es : List Expr} :
    ReadsArguments n ts es n' → Spelled ts → es.length ≤ 8 ∧ Expr.FormedAll es
  | .none, _ => ⟨Nat.zero_le _, trivial⟩
  | .some h hlength, hts => by
    have items := formed_of_items h hts
    exact ⟨hlength, items⟩

theorem formed_of_items {n n' : Nat} {ts : List Token} {es : List Expr} :
    ReadsItems n ts es n' → Spelled ts → Expr.FormedAll es
  | .last h, hts => by
    have item := formed_of_reads h hts
    exact ⟨item, trivial⟩
  | .more h _ hmore, hts => by
    simp only [spelled_cons, spelled_append] at hts
    have item := formed_of_reads h hts.1
    have more := formed_of_items hmore hts.2.2
    exact ⟨item, more⟩

end

theorem formed_of_optional {n n' : Nat} {ts : List Token} {value : Option Expr}
    (h : ReadsOptional n ts value n') (hts : Spelled ts) : Expr.FormedIfAny value := by
  cases h with
  | none => exact nofun
  | some h =>
    rintro _ ⟨⟩
    exact formed_of_reads h hts

/-! ## Statements and declarations that are read -/

theorem names_formed {ts names : List Token} :
    ReadsNames ts names → Spelled ts → ∀ name ∈ names, name.IsName
  | .last h, hts => List.forall_mem_singleton.mpr ((spelled_cons.mp hts).1.isName h)
  | .more h _ hmore, hts => by
    simp only [spelled_cons] at hts
    exact List.forall_mem_cons.mpr ⟨hts.1.isName h, names_formed hmore hts.2.2⟩

theorem parameters_formed {ts names : List Token} (h : ReadsParameters ts names)
    (hts : Spelled ts) : names.length ≤ 8 ∧ ∀ name ∈ names, name.IsName := by
  cases h with
  | none => exact ⟨Nat.zero_le _, nofun⟩
  | some h hlength => exact ⟨hlength, names_formed h hts⟩

theorem formed_of_variable {n n' : Nat} {ts : List Token} {t : Stmt}
    (h : ReadsVariable n ts t n') (hts : Spelled ts) : t.Formed := by
  cases h with
  | bare h _ => exact ⟨(spelled_cons.mp hts).1.isName h, nofun⟩
  | initialized h _ hvalue _ =>
    simp only [List.cons_append, spelled_cons, spelled_append] at hts
    refine ⟨hts.1.isName h, ?_⟩
    rintro _ ⟨⟩
    exact formed_of_reads hvalue hts.2.2.1

theorem formed_of_initializer {n n' : Nat} {ts : List Token} {first : Option Stmt}
    (h : ReadsInitializer n ts first n') (hts : Spelled ts) : ∀ t ∈ first, t.Formed := by
  cases h with
  | none => exact nofun
  | varDecl _ h =>
    rintro _ ⟨⟩
    exact formed_of_variable h (spelled_cons.mp hts).2
  | expression h _ =>
    rintro _ ⟨⟩
    exact formed_of_reads h (spelled_append.mp hts).1

/-- What a `for` loop stands for is well formed if its parts are. -/
theorem formed_forLoop {first : Option Stmt} {condition step : Option Expr} {body : Stmt}
    (hfirst : ∀ t ∈ first, t.Formed) (hcondition : Expr.FormedIfAny condition)
    (hstep : Expr.FormedIfAny step) (hbody : body.Formed) :
    (Stmt.forLoop first condition step body).Formed := by
  have test : (condition.getD (.literal (.boolean true))).Formed := by
    cases condition with
    | none => trivial
    | some e => exact hcondition e rfl
  -- without an initializer, the loop is a `while` whose body ends with the step, if there is one
  have loop : (Stmt.forLoop none condition step body).Formed := by
    cases step with
    | none => exact ⟨test, hbody⟩
    | some e => exact ⟨test, hbody, hstep e rfl, trivial⟩
  cases first with
  | none => exact loop
  | some t => exact ⟨hfirst t rfl, loop, trivial⟩

mutual

theorem formed_of_statement {isOpen : Bool} {n n' : Nat} {ts : List Token} {t : Stmt} :
    ReadsStatement isOpen n ts t n' → Spelled ts → t.Formed
  | .expression h _, hts => formed_of_reads h (spelled_append.mp hts).1
  | .print _ h _, hts => by
    simp only [List.cons_append, spelled_cons, spelled_append] at hts
    exact formed_of_reads h hts.2.1
  | .returns _ h _, hts => by
    simp only [List.cons_append, spelled_cons, spelled_append] at hts
    exact formed_of_optional h hts.2.1
  | .block _ h _, hts => by
    simp only [List.cons_append, spelled_cons, spelled_append] at hts
    have body := formed_of_declarations h hts.2.1
    exact body
  | .ifThen _ _ hcondition _ h, hts => by
    simp only [List.cons_append, spelled_cons, spelled_append] at hts
    obtain ⟨_, _, htest, _, hbranch⟩ := hts
    have branch := formed_of_statement h hbranch
    exact ⟨formed_of_reads hcondition htest, branch⟩
  | .ifElse _ _ hcondition _ hthen _ helse, hts => by
    simp only [List.cons_append, List.append_assoc, spelled_cons, spelled_append] at hts
    obtain ⟨_, _, htest, _, hfirst, _, hsecond⟩ := hts
    have thenBranch := formed_of_statement hthen hfirst
    have elseBranch := formed_of_statement helse hsecond
    exact ⟨formed_of_reads hcondition htest, thenBranch, elseBranch⟩
  | .whileLoop _ _ hcondition _ h, hts => by
    simp only [List.cons_append, spelled_cons, spelled_append] at hts
    obtain ⟨_, _, htest, _, hbody⟩ := hts
    have body := formed_of_statement h hbody
    exact ⟨formed_of_reads hcondition htest, body⟩
  | .forLoop _ _ hinitializer hcondition _ hstep _ h, hts => by
    simp only [List.cons_append, List.append_assoc, spelled_cons, spelled_append] at hts
    obtain ⟨_, _, hfirst, htest, _, hlast, _, hbody⟩ := hts
    have body := formed_of_statement h hbody
    exact formed_forLoop (formed_of_initializer hinitializer hfirst)
      (formed_of_optional hcondition htest) (formed_of_optional hstep hlast) body

theorem formed_of_declaration {isOpen : Bool} {n n' : Nat} {ts : List Token} {t : Stmt} :
    ReadsDeclaration isOpen n ts t n' → Spelled ts → t.Formed
  | .statement h, hts => by
    have statement := formed_of_statement h hts
    exact statement
  | .varDecl _ h, hts => formed_of_variable h (spelled_cons.mp hts).2
  | .funDecl _ h, hts => by
    have routine := formed_of_routine h (spelled_cons.mp hts).2
    exact routine
  | .classDecl _ hname _ h _, hts => by
    simp only [List.cons_append, spelled_cons, spelled_append] at hts
    have methods := formed_of_routines h hts.2.2.2.1
    exact ⟨hts.2.1.isName hname, methods⟩

/-- Declarations that are read from words as they are spelled are well formed. -/
theorem formed_of_declarations {n n' : Nat} {ts : List Token} {body : List Stmt} :
    ReadsDeclarations n ts body n' → Spelled ts → Stmt.FormedAll body
  | .nil, _ => trivial
  | .cons h hmore, hts => by
    have first := formed_of_declaration h (spelled_append.mp hts).1
    have more := formed_of_declarations hmore (spelled_append.mp hts).2
    exact ⟨first, more⟩

theorem formed_of_routine {n n' : Nat} {ts : List Token} {f : FunctionDecl} :
    ReadsRoutine n ts f n' → Spelled ts → f.Formed
  | .intro hname _ hparams _ _ h _, hts => by
    simp only [List.cons_append, List.append_assoc, spelled_cons, spelled_append] at hts
    obtain ⟨hfirst, _, hbetween, _, _, hbody, _⟩ := hts
    have body := formed_of_declarations h hbody
    obtain ⟨hlength, hnames⟩ := parameters_formed hparams hbetween
    exact ⟨hfirst.isName hname, hlength, hnames, body⟩

theorem formed_of_routines {n n' : Nat} {ts : List Token} {fs : List FunctionDecl} :
    ReadsRoutines n ts fs n' → Spelled ts → FunctionDecl.FormedAll fs
  | .nil, _ => trivial
  | .cons h hmore, hts => by
    have first := formed_of_routine h (spelled_append.mp hts).1
    have more := formed_of_routines hmore (spelled_append.mp hts).2
    exact ⟨first, more⟩

end

/-! ## Sources -/

/-- What the parser makes of a source is well formed. -/
theorem formed_of_parseProgram {n n' : OccurrenceId} {source : String} {program : List Stmt}
    (h : parseProgram n (tokensOf source) = ⟨.ok program, n'⟩) : Stmt.FormedAll program :=
  formed_of_declarations (parseProgram_eq_ok.mp h) (spelled_takeWhile source)

theorem formed_of_parseExpression {n n' : OccurrenceId} {source : String} {value : Expr}
    (h : parseExpression n (tokensOf source) = ⟨.ok value, n'⟩) : value.Formed :=
  formed_of_reads (parseExpression_eq_ok.mp h) (spelled_takeWhile source)

end Lox
