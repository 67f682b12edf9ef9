import Lox.Proofs.Parser.Program
import Lox.Proofs.Token.Joining
import Lox.Proofs.Token.Segmentation

/-!
# Trees of texts of the lexical grammar

The types of trees let a token say one thing and be written as another. In a tree that is read from a
source, operators, names and the other tokens that are kept are what the lexical grammar says that their
texts are, and the numbers are values of numerals (`lexed_of_parseProgram`, `lexed_of_parseExpression`).
-/

namespace Lox

/-! ## Tokens -/

/-- The token is what the lexical grammar says that its text is. -/
def Token.IsLexical (token : Token) : Prop := Lexical (.kind token.kind) token.lexeme.toList

/-- The tokens are what the lexical grammar says. -/
def Lexed (ts : List Token) : Prop := ∀ token ∈ ts, token.IsLexical

theorem lexed_cons {token : Token} {ts : List Token} :
    Lexed (token :: ts) ↔ token.IsLexical ∧ Lexed ts :=
  List.forall_mem_cons

theorem lexed_append {ts us : List Token} : Lexed (ts ++ us) ↔ Lexed ts ∧ Lexed us :=
  List.forall_mem_append

/-- A piece of a source that is a token is a text of the grammar. -/
theorem Piece.Cut.isLexical {p : Piece} (h : p.Cut) {token : Token}
    (htoken : p.item? = some (.token token)) : token.IsLexical := by
  obtain ⟨before, text, after, content⟩ := p
  cases content with
  | kind kind =>
    cases htoken
    cases h.cut with
    | lexeme h => exact h
  | _ => nomatch htoken

/-- The tokens of a source in front of its end are texts of the grammar. -/
theorem lexed_wordsOf (source : String) : Lexed (wordsOf source) := by
  intro token htoken
  have inner : token ∈ tokensOf source := (List.takeWhile_sublist _).subset htoken
  have last : token.kind ≠ .eof := by simpa using List.mem_takeWhile_imp htoken
  obtain ⟨item, hitem, hsome⟩ := List.mem_filterMap.mp inner
  cases item with
  | issue line cause => nomatch hsome
  | token token' =>
    cases hsome
    rw [itemsOf_pieces, List.mem_append, List.mem_singleton] at hitem
    rcases hitem with hpiece | hend
    · obtain ⟨p, hp, htoken⟩ := List.mem_filterMap.mp hpiece
      exact (cut_of_mem hp).isLexical htoken
    · cases hend
      exact absurd rfl last

/-! ## Trees -/

/-- A number is the value of a numeral. -/
def Literal.Lexed : Literal → Prop
  | .number value => ∃ text, Lexical (.kind (.number value)) text
  | _ => True

mutual

/-- The tokens that are kept are what the lexical grammar says that their texts are, and the numbers are
values of numerals. -/
def Expr.Lexed : Expr → Prop
  | .literal value => value.Lexed
  | .grouping inner => inner.Lexed
  | .unary operator operand => operator.IsLexical ∧ operand.Lexed
  | .binary left operator right | .logical left operator right =>
    operator.IsLexical ∧ left.Lexed ∧ right.Lexed
  | .var _ name => name.IsLexical
  | .assign _ name value => name.IsLexical ∧ value.Lexed
  | .call callee paren arguments =>
    callee.Lexed ∧ (paren.kind = .symbol .rightParen ∧ paren.IsLexical) ∧ Expr.LexedAll arguments
  | .get object name => name.IsLexical ∧ object.Lexed
  | .set object name value => name.IsLexical ∧ object.Lexed ∧ value.Lexed
  | .this _ keyword => keyword.IsLexical

def Expr.LexedAll : List Expr → Prop
  | [] => True
  | first :: more => first.Lexed ∧ Expr.LexedAll more

end

/-- The same for an expression that may be missing. -/
def Expr.LexedIfAny (value : Option Expr) : Prop := ∀ e ∈ value, e.Lexed

mutual

/-- The tokens that are kept are what the lexical grammar says that their texts are, and the numbers are
values of numerals. -/
def Stmt.Lexed : Stmt → Prop
  | .expression value | .print value => value.Lexed
  | .varDecl name initializer => name.IsLexical ∧ Expr.LexedIfAny initializer
  | .block body => Stmt.LexedAll body
  | .ifThen condition thenBranch => condition.Lexed ∧ thenBranch.Lexed
  | .ifElse condition thenBranch elseBranch => condition.Lexed ∧ thenBranch.Lexed ∧ elseBranch.Lexed
  | .whileLoop condition body => condition.Lexed ∧ body.Lexed
  | .funDecl declaration => declaration.Lexed
  | .returns keyword value =>
    (keyword.kind = .keyword .returnKw ∧ keyword.IsLexical) ∧ Expr.LexedIfAny value
  | .classDecl name methods => name.IsLexical ∧ FunctionDecl.LexedAll methods

def FunctionDecl.Lexed : FunctionDecl → Prop
  | ⟨name, params, body⟩ => name.IsLexical ∧ Lox.Lexed params ∧ Stmt.LexedAll body

def Stmt.LexedAll : List Stmt → Prop
  | [] => True
  | first :: more => first.Lexed ∧ Stmt.LexedAll more

def FunctionDecl.LexedAll : List FunctionDecl → Prop
  | [] => True
  | first :: more => first.Lexed ∧ FunctionDecl.LexedAll more

end

theorem Expr.LexedAll.mem {es : List Expr} (h : Expr.LexedAll es) : ∀ e ∈ es, e.Lexed := by
  induction es with
  | nil => exact nofun
  | cons first more ih => exact List.forall_mem_cons.mpr ⟨h.1, ih h.2⟩

theorem Stmt.LexedAll.mem {body : List Stmt} (h : Stmt.LexedAll body) : ∀ t ∈ body, t.Lexed := by
  induction body with
  | nil => exact nofun
  | cons first more ih => exact List.forall_mem_cons.mpr ⟨h.1, ih h.2⟩

theorem FunctionDecl.LexedAll.mem {fs : List FunctionDecl} (h : FunctionDecl.LexedAll fs) :
    ∀ f ∈ fs, f.Lexed := by
  induction fs with
  | nil => exact nofun
  | cons first more ih => exact List.forall_mem_cons.mpr ⟨h.1, ih h.2⟩

/-! ## Expressions that are read -/

/-- A token that stands for a constant is the text of its value. -/
theorem Token.IsLexical.literal {token : Token} (h : token.IsLexical) {value : Literal}
    (hvalue : token.kind.literal? = some value) : value.Lexed := by
  cases value with
  | number x =>
    have number : token.kind = .number x := by
      unfold TokenKind.literal? at hvalue
      split at hvalue <;> cases hvalue
      assumption
    rw [Token.IsLexical, number] at h
    exact ⟨_, h⟩
  | _ => trivial

/-- The trees of a tier keep their operator and both operands. -/
theorem tiers_lex : ∀ tier ∈ Parser.tiers, ∀ left operator right, operator.IsLexical → left.Lexed →
    right.Lexed → (tier.node left operator right).Lexed := by
  intro tier htier left operator right hoperator hleft hright
  have node : tier.node = .logical ∨ tier.node = .binary := by
    revert tier
    simp [Parser.tiers]
  rcases node with hnode | hnode <;> rw [hnode] <;> exact ⟨hoperator, hleft, hright⟩

/-- What is read by a rule is lexed, if the tiers of the rule are those of the language. -/
def LexedBy : ExprRule → Expr → Prop
  | .climb tiers, e => tiers ⊆ Parser.tiers → e.Lexed
  | _, e => e.Lexed

mutual

/-- An expression that is read from texts of the grammar is lexed. -/
theorem lexed_of_reads {rule : ExprRule} {n n' : Nat} {ts : List Token} {e : Expr} :
    ReadsExpr rule n ts e n' → Lexed ts → LexedBy rule e
  | .literal h, hts => (lexed_cons.mp hts).1.literal h
  | .this _, hts => (lexed_cons.mp hts).1
  | .var _, hts => (lexed_cons.mp hts).1
  | .grouping _ hinner _, hts => by
    simp only [List.cons_append, lexed_cons, lexed_append] at hts
    have inner := lexed_of_reads hinner hts.2.1
    exact inner
  | .primary h, hts => by
    have operand := lexed_of_reads h hts
    exact operand
  | .call hcallee _ harguments hclosing, hts => by
    simp only [List.append_assoc, List.cons_append, lexed_cons, lexed_append] at hts
    obtain ⟨hfirst, _, hbetween, hparen, _⟩ := hts
    have callee := lexed_of_reads hcallee hfirst
    have arguments := lexed_of_arguments harguments hbetween
    exact ⟨callee, ⟨hclosing, hparen⟩, arguments⟩
  | .get hobject _ _, hts => by
    simp only [lexed_cons, lexed_append] at hts
    have object := lexed_of_reads hobject hts.1
    exact ⟨hts.2.2.1, object⟩
  | .applied h, hts => by
    have operand := lexed_of_reads h hts
    exact operand
  | .unary _ h, hts => by
    have operand := lexed_of_reads h (lexed_cons.mp hts).2
    exact ⟨(lexed_cons.mp hts).1, operand⟩
  | .prefixed h, hts => fun _ => by
    have operand := lexed_of_reads h hts
    exact operand
  | .operand h, hts => fun htiers => by
    have operand := lexed_of_reads h hts
    exact operand (List.cons_subset.mp htiers).2
  | .operator hleft _ hright, hts => fun htiers => by
    simp only [lexed_cons, lexed_append] at hts
    obtain ⟨htier, htighter⟩ := List.cons_subset.mp htiers
    have left := lexed_of_reads hleft hts.1 htiers
    have right := lexed_of_reads hright hts.2.2 htighter
    exact tiers_lex _ htier _ _ _ hts.2.1 left right
  | .loosest h, hts => by
    have operand := lexed_of_reads h hts fun _ => id
    exact operand
  | .assign htarget _ hvalue, hts => by
    simp only [lexed_cons, lexed_append] at hts
    have target := lexed_of_reads htarget hts.1 fun _ => id
    have value := lexed_of_reads hvalue hts.2.2
    exact ⟨target, value⟩
  | .set htarget _ hvalue, hts => by
    simp only [lexed_cons, lexed_append] at hts
    have target := lexed_of_reads htarget hts.1 fun _ => id
    have value := lexed_of_reads hvalue hts.2.2
    exact ⟨target.1, target.2, value⟩

theorem lexed_of_arguments {n n' : Nat} {ts : List Token} {es : List Expr} :
    ReadsArguments n ts es n' → Lexed ts → Expr.LexedAll es
  | .none, _ => trivial
  | .some h _, hts => by
    have items := lexed_of_items h hts
    exact items

theorem lexed_of_items {n n' : Nat} {ts : List Token} {es : List Expr} :
    ReadsItems n ts es n' → Lexed ts → Expr.LexedAll es
  | .last h, hts => by
    have item := lexed_of_reads h hts
    exact ⟨item, trivial⟩
  | .more h _ hmore, hts => by
    simp only [lexed_cons, lexed_append] at hts
    have item := lexed_of_reads h hts.1
    have more := lexed_of_items hmore hts.2.2
    exact ⟨item, more⟩

end

theorem lexed_of_optional {n n' : Nat} {ts : List Token} {value : Option Expr}
    (h : ReadsOptional n ts value n') (hts : Lexed ts) : Expr.LexedIfAny value := by
  cases h with
  | none => exact nofun
  | some h =>
    rintro _ ⟨⟩
    exact lexed_of_reads h hts

/-! ## Statements and declarations that are read -/

theorem names_lexed {ts names : List Token} : ReadsNames ts names → Lexed ts → Lexed names
  | .last _, hts => hts
  | .more _ _ hmore, hts => by
    simp only [lexed_cons] at hts
    exact lexed_cons.mpr ⟨hts.1, names_lexed hmore hts.2.2⟩

theorem parameters_lexed {ts names : List Token} (h : ReadsParameters ts names) (hts : Lexed ts) :
    Lexed names := by
  cases h with
  | none => exact hts
  | some h _ => exact names_lexed h hts

theorem lexed_of_variable {n n' : Nat} {ts : List Token} {t : Stmt}
    (h : ReadsVariable n ts t n') (hts : Lexed ts) : t.Lexed := by
  cases h with
  | bare _ _ => exact ⟨(lexed_cons.mp hts).1, nofun⟩
  | initialized _ _ hvalue _ =>
    simp only [List.cons_append, lexed_cons, lexed_append] at hts
    refine ⟨hts.1, ?_⟩
    rintro _ ⟨⟩
    exact lexed_of_reads hvalue hts.2.2.1

theorem lexed_of_initializer {n n' : Nat} {ts : List Token} {first : Option Stmt}
    (h : ReadsInitializer n ts first n') (hts : Lexed ts) : ∀ t ∈ first, t.Lexed := by
  cases h with
  | none => exact nofun
  | varDecl _ h =>
    rintro _ ⟨⟩
    exact lexed_of_variable h (lexed_cons.mp hts).2
  | expression h _ =>
    rintro _ ⟨⟩
    exact lexed_of_reads h (lexed_append.mp hts).1

/-- What a `for` loop stands for is lexed if its parts are. -/
theorem lexed_forLoop {first : Option Stmt} {condition step : Option Expr} {body : Stmt}
    (hfirst : ∀ t ∈ first, t.Lexed) (hcondition : Expr.LexedIfAny condition)
    (hstep : Expr.LexedIfAny step) (hbody : body.Lexed) :
    (Stmt.forLoop first condition step body).Lexed := by
  have test : (condition.getD (.literal (.boolean true))).Lexed := by
    cases condition with
    | none => trivial
    | some e => exact hcondition e rfl
  have loop : (Stmt.forLoop none condition step body).Lexed := by
    cases step with
    | none => exact ⟨test, hbody⟩
    | some e => exact ⟨test, hbody, hstep e rfl, trivial⟩
  cases first with
  | none => exact loop
  | some t => exact ⟨hfirst t rfl, loop, trivial⟩

mutual

theorem lexed_of_statement {isOpen : Bool} {n n' : Nat} {ts : List Token} {t : Stmt} :
    ReadsStatement isOpen n ts t n' → Lexed ts → t.Lexed
  | .expression h _, hts => lexed_of_reads h (lexed_append.mp hts).1
  | .print _ h _, hts => by
    simp only [List.cons_append, lexed_cons, lexed_append] at hts
    exact lexed_of_reads h hts.2.1
  | .returns hkeyword h _, hts => by
    simp only [List.cons_append, lexed_cons, lexed_append] at hts
    exact ⟨⟨hkeyword, hts.1⟩, lexed_of_optional h hts.2.1⟩
  | .block _ h _, hts => by
    simp only [List.cons_append, lexed_cons, lexed_append] at hts
    have body := lexed_of_declarations h hts.2.1
    exact body
  | .ifThen _ _ hcondition _ h, hts => by
    simp only [List.cons_append, lexed_cons, lexed_append] at hts
    obtain ⟨_, _, htest, _, hbranch⟩ := hts
    have branch := lexed_of_statement h hbranch
    exact ⟨lexed_of_reads hcondition htest, branch⟩
  | .ifElse _ _ hcondition _ hthen _ helse, hts => by
    simp only [List.cons_append, List.append_assoc, lexed_cons, lexed_append] at hts
    obtain ⟨_, _, htest, _, hfirst, _, hsecond⟩ := hts
    have thenBranch := lexed_of_statement hthen hfirst
    have elseBranch := lexed_of_statement helse hsecond
    exact ⟨lexed_of_reads hcondition htest, thenBranch, elseBranch⟩
  | .whileLoop _ _ hcondition _ h, hts => by
    simp only [List.cons_append, lexed_cons, lexed_append] at hts
    obtain ⟨_, _, htest, _, hbody⟩ := hts
    have body := lexed_of_statement h hbody
    exact ⟨lexed_of_reads hcondition htest, body⟩
  | .forLoop _ _ hinitializer hcondition _ hstep _ h, hts => by
    simp only [List.cons_append, List.append_assoc, lexed_cons, lexed_append] at hts
    obtain ⟨_, _, hfirst, htest, _, hlast, _, hbody⟩ := hts
    have body := lexed_of_statement h hbody
    exact lexed_forLoop (lexed_of_initializer hinitializer hfirst)
      (lexed_of_optional hcondition htest) (lexed_of_optional hstep hlast) body

theorem lexed_of_declaration {isOpen : Bool} {n n' : Nat} {ts : List Token} {t : Stmt} :
    ReadsDeclaration isOpen n ts t n' → Lexed ts → t.Lexed
  | .statement h, hts => by
    have statement := lexed_of_statement h hts
    exact statement
  | .varDecl _ h, hts => lexed_of_variable h (lexed_cons.mp hts).2
  | .funDecl _ h, hts => by
    have routine := lexed_of_routine h (lexed_cons.mp hts).2
    exact routine
  | .classDecl _ _ _ h _, hts => by
    simp only [List.cons_append, lexed_cons, lexed_append] at hts
    have methods := lexed_of_routines h hts.2.2.2.1
    exact ⟨hts.2.1, methods⟩

/-- Declarations that are read from texts of the grammar are lexed. -/
theorem lexed_of_declarations {n n' : Nat} {ts : List Token} {body : List Stmt} :
    ReadsDeclarations n ts body n' → Lexed ts → Stmt.LexedAll body
  | .nil, _ => trivial
  | .cons h hmore, hts => by
    have first := lexed_of_declaration h (lexed_append.mp hts).1
    have more := lexed_of_declarations hmore (lexed_append.mp hts).2
    exact ⟨first, more⟩

theorem lexed_of_routine {n n' : Nat} {ts : List Token} {f : FunctionDecl} :
    ReadsRoutine n ts f n' → Lexed ts → f.Lexed
  | .intro _ _ hparams _ _ h _, hts => by
    simp only [List.cons_append, List.append_assoc, lexed_cons, lexed_append] at hts
    obtain ⟨hname, _, hbetween, _, _, hbody, _⟩ := hts
    have body := lexed_of_declarations h hbody
    exact ⟨hname, parameters_lexed hparams hbetween, body⟩

theorem lexed_of_routines {n n' : Nat} {ts : List Token} {fs : List FunctionDecl} :
    ReadsRoutines n ts fs n' → Lexed ts → FunctionDecl.LexedAll fs
  | .nil, _ => trivial
  | .cons h hmore, hts => by
    have first := lexed_of_routine h (lexed_append.mp hts).1
    have more := lexed_of_routines hmore (lexed_append.mp hts).2
    exact ⟨first, more⟩

end

/-! ## Sources -/

/-- What the parser makes of a source is lexed. -/
theorem lexed_of_parseProgram {n n' : OccurrenceId} {source : String} {program : List Stmt}
    (h : parseProgram n (tokensOf source) = ⟨.ok program, n'⟩) : Stmt.LexedAll program :=
  lexed_of_declarations (parseProgram_eq_ok.mp h) (lexed_wordsOf source)

theorem lexed_of_parseExpression {n n' : OccurrenceId} {source : String} {value : Expr}
    (h : parseExpression n (tokensOf source) = ⟨.ok value, n'⟩) : value.Lexed :=
  lexed_of_reads (parseExpression_eq_ok.mp h) (lexed_wordsOf source)

end Lox
