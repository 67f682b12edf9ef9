import Lox.Proofs.Parser.Noticing
import Lox.Proofs.Parser.Tolerance

/-!
# Over-long lists and wrong targets are reported

A source that derives from the lenient grammar is read to its end, and the errors that are reported of it
are the flaws of its derivation, in the order in which they are met (`flaws_reported`).

A derivation can give an `else` to an outer condition, and the parser gives it to the innermost one. So what
is known of a run over a statement is kept in pieces (`Spans`) until it is known what stands behind it.
-/

namespace Lox.Parser

open Lox.Grammar Lox.Grammar.Phrase

/-! ## Statements in pieces -/

/-- The branches behind a condition. -/
def branches (condition : Expr) : Parser Stmt := do
  let thenBranch ← statement
  if ← accept (.keyword .elseKw) then
    return .ifElse condition thenBranch (← statement)
  else return .ifThen condition thenBranch

/-- What is left to do is to read a statement and to put it into a tree. -/
def IsFrame (p : Parser Stmt) : Prop := ∃ f : Stmt → Stmt, p = do return f (← statement)

/-- What is left to do is to read branches. -/
def IsBranching (p : Parser Stmt) : Prop := ∃ condition, p = branches condition

/-- The tokens are those of a statement, which is taken apart down to the innermost condition that is open:
one that an `else` behind it would belong to. -/
inductive Spans : Bool → Reading
  | closed {rest ts flaws} : Passes statement rest ts flaws → Spans false rest ts flaws
  | framed {isOpen rest ts us flaws more} : ComesTo statement IsFrame (us ++ rest) ts flaws →
      Spans isOpen rest us more → Spans isOpen rest (ts ++ us) (flaws ++ more)
  | ifThen {isOpen rest ts us flaws more} : ComesTo statement IsBranching (us ++ rest) ts flaws →
      Spans isOpen rest us more → Spans true rest (ts ++ us) (flaws ++ more)
  | ifElse {isOpen rest ts us keyword vs flaws more others} :
      ComesTo statement IsBranching (us ++ keyword :: vs ++ rest) ts flaws →
      Spans false (keyword :: vs ++ rest) us more → keyword.kind = .keyword .elseKw →
      Spans isOpen rest vs others →
      Spans isOpen rest (ts ++ (us ++ keyword :: vs)) (flaws ++ (more ++ others))

section

variable {rest ts us : List Token} {flaws more : List SyntaxError} {token : Token} {isOpen : Bool}

/-- The pieces of a statement are read one behind the other, if no `else` follows an open one. -/
theorem Spans.passes (h : Spans isOpen rest ts flaws)
    (hrest : isOpen = true → NotNext (.keyword .elseKw) rest) : Passes statement rest ts flaws := by
  induction h with
  | closed h => exact h
  | framed head _ ih =>
    refine head.trans ?_
    rintro _ ⟨f, rfl⟩
    exact (ih hrest).last fun t _ => Passes.pure (f t)
  | ifThen head _ ih =>
    refine head.trans ?_
    rintro _ ⟨condition, rfl⟩
    exact (ih fun _ => hrest rfl).last fun t _ => ComesTo.left (hrest rfl) (Passes.pure _)
  | ifElse head _ hkeyword _ ih ih' =>
    refine head.trans ?_
    rintro _ ⟨condition, rfl⟩
    -- the branch in front of this `else` has no condition that is open, or that one would have taken it
    have thenBranch := ih fun hopen => absurd hopen Bool.false_ne_true
    exact thenBranch.bind fun t _ => .taken hkeyword ((ih' hrest).last fun t' _ => Passes.pure _)

/-- An `else` behind an open statement goes to the innermost condition without one. -/
theorem Spans.attach {keyword : Token} (hkeyword : keyword.kind = .keyword .elseKw) {vs : List Token}
    {others : List SyntaxError} {hasOpen : Bool} (hvs : Spans hasOpen rest vs others) {behind : List Token}
    (h : Spans isOpen behind us more) (hopen : isOpen = true) (hbehind : behind = keyword :: vs ++ rest) :
    ∃ isOpen, Spans isOpen rest (us ++ keyword :: vs) (more ++ others) := by
  induction h with
  | closed => cases hopen
  | framed head _ ih =>
    subst hbehind
    obtain ⟨isOpen, attached⟩ := ih hopen rfl
    rw [← List.append_assoc] at head
    exact ⟨isOpen, by simpa using Spans.framed head attached⟩
  | @ifThen isOpen _ _ _ _ _ head hthen ih =>
    -- if the branch itself has an open condition, then the `else` goes to that one
    subst hbehind
    rw [← List.append_assoc] at head
    cases isOpen with
    | true =>
      obtain ⟨_, attached⟩ := ih rfl rfl
      exact ⟨true, by simpa using Spans.ifThen head attached⟩
    | false => exact ⟨hasOpen, by simpa using Spans.ifElse head hthen hkeyword hvs⟩
  | @ifElse _ _ ts us other ws f g _ head hthen hother _ _ ih =>
    -- only the second branch can have an open condition
    subst hbehind
    obtain ⟨isOpen, attached⟩ := ih hopen rfl
    have head : ComesTo statement IsBranching (us ++ other :: (ws ++ keyword :: vs) ++ rest) ts f := by
      simpa using head
    have hthen : Spans false (other :: (ws ++ keyword :: vs) ++ rest) us g := by simpa using hthen
    exact ⟨isOpen, by simpa using Spans.ifElse head hthen hother attached⟩

end

/-! ## What runs do -/

/-- The tokens begin with one of another kind than these. -/
def BeginsOutside (kinds : List TokenKind) (ts : List Token) : Prop :=
  ∃ token us, ts = token :: us ∧ token.kind ∉ kinds

/-- A statement is read. -/
def RunsStatement : Reading := fun rest ts flaws =>
  BeginsOutside neverFirst ts ∧ ∃ isOpen, Spans isOpen rest ts flaws

/-- A declaration is read, if no `else` is next. -/
def RunsDeclaration : Reading := fun rest ts flaws =>
  BeginsOutside [.keyword .elseKw, .symbol .rightBrace] ts ∧
    (NotNext (.keyword .elseKw) rest → Passes declaration rest ts flaws)

/-- A function is read from its name on, and a method likewise. -/
def RunsRoutine : Reading := fun rest ts flaws =>
  BeginsOutside [.symbol .rightBrace] ts ∧ ∀ kind, Passes (routine kind declaration) rest ts flaws

/-- Behind the first token, which is of this kind, the parser takes the others. -/
def RunsBehind {α : Type} (kind : TokenKind) (p : Parser α) : Reading := fun rest ts flaws =>
  ∃ token us, ts = token :: us ∧ token.kind = kind ∧ Passes p rest us flaws

/-- What the parser does with the tokens of a rule. -/
def Runs : Rule → Reading
  | .program => fun rest ts flaws => rest = [] → Passes program rest ts flaws
  | .declaration | .classDecl | .funDecl => RunsDeclaration
  | .function => RunsRoutine
  | .varDecl => RunsBehind (.keyword .varKw) varDeclaration
  | .statement | .forStmt | .ifStmt | .printStmt | .returnStmt | .whileStmt => RunsStatement
  | .exprStmt => fun rest ts flaws =>
    Begins startsExpression ts ∧ Passes expressionStatement rest ts flaws
  | .block => RunsBehind (.symbol .leftBrace) (block declaration)
  | .parameters => RunsListed .tooManyParameters (expect .identifier .parameterName)
  | .expression | .assignment => RunsExpression
  | .logicOr => RunsClimb tiers
  | .logicAnd => RunsClimb (tiers.drop 1)
  | .equality => RunsClimb (tiers.drop 2)
  | .comparison => RunsClimb (tiers.drop 3)
  | .term => RunsClimb (tiers.drop 4)
  | .factor => RunsClimb (tiers.drop 5)
  | .unary => RunsClimb []
  | .call => RunsCall
  | .arguments => RunsListed .tooManyArguments expression
  | .primary => fun rest ts flaws =>
    RunsOperand (primary expression) startsOperand (fun _ => True) (EndsInName ts) rest ts flaws

/-! ## Statements -/

section

variable {rest ts us vs : List Token} {flaws more : List SyntaxError} {token : Token}

/-- An expression, the mark behind it, and what is behind the mark. -/
theorem comes_behind {α : Type} {goals : Parser α → Prop} {symbol : Symbol} (place : MarkPlace)
    {k : Expr → Parser α} (h : RunsExpression (token :: us ++ rest) ts flaws)
    (hkind : token.kind = .symbol symbol)
    (hmark : continues tiers (.symbol symbol) = false ∧ (.symbol symbol : TokenKind) ≠ .symbol .equal)
    (h' : ∀ e, ComesTo (k e) goals rest us more) :
    ComesTo (do
      let e ← expression
      let _ ← expectMark symbol place
      k e) goals rest (ts ++ token :: us) (flaws ++ more) :=
  (h.2 (stopsWhole_cons (hkind ▸ hmark))).bind fun e _ => .expect hkind (h' e)

/-- The condition in front of a branch or body. -/
theorem comes_condition {goals : Parser Stmt → Prop} (place place' : MarkPlace) {k : Expr → Parser Stmt}
    {opening closing : Token} (hopening : opening.kind = .symbol .leftParen)
    (h : RunsExpression (closing :: rest) ts flaws) (hclosing : closing.kind = .symbol .rightParen)
    (h' : ∀ e, goals (k e)) :
    ComesTo (do
      let _ ← expectMark .leftParen place
      let e ← expression
      let _ ← expectMark .rightParen place'
      k e) goals rest (opening :: ts ++ [closing]) flaws := by
  have run : ComesTo _ goals rest (ts ++ [closing]) (flaws ++ []) :=
    comes_behind place' h hclosing (by decide) fun e => ComesTo.refl (h' e)
  rw [List.append_nil] at run
  exact ComesTo.expect hopening run

/-- The first token says which rule a statement is read by. -/
theorem comes_by_rule {goals : Parser Stmt → Prop} {p : Parser Stmt}
    (hp : ∀ s : State, s.rest = token :: (us ++ rest) →
      statementRule statement declaration s = p { s with rest := us ++ rest })
    (h : ComesTo p goals rest us flaws) : ComesTo statement goals rest (token :: us) flaws := by
  have byRule : ComesTo (statementRule statement declaration) goals rest (token :: us) flaws :=
    ComesTo.of_cons h fun hs => hp _ hs
  exact ComesTo.of_unfold byRule fun ends _ => statement_unfold ends

/-- A statement that ends with a semicolon or a brace. -/
theorem runs_closed {p : Parser Stmt} (hfirst : token.kind ∉ neverFirst)
    (hp : ∀ s : State, s.rest = token :: (us ++ rest) →
      statementRule statement declaration s = p { s with rest := us ++ rest })
    (h : Passes p rest us flaws) : RunsStatement rest (token :: us) flaws :=
  ⟨⟨token, us, rfl, hfirst⟩, false, .closed (comes_by_rule hp h)⟩

theorem runs_print (h : Rule.printStmt.phrase.Shows Runs rest ts flaws) : RunsStatement rest ts flaws := by
  obtain ⟨_, _, _, _, rfl, rfl, ⟨_, us, _, f, rfl, rfl, ⟨keyword, rfl, rfl, hkeyword⟩, value⟩, semicolon,
    rfl, rfl, hsemicolon⟩ := h
  refine runs_closed (p := printStatement) (by rw [hkeyword]; decide) (fun s hs => ?_) ?_
  · rw [statementRule_run _ _ hs, hkeyword]
  · exact comes_behind _ value hsemicolon (by decide) fun e => Passes.pure _

/-- An expression that may be missing before a mark. -/
theorem passes_optionalBefore {symbol : Symbol} (next : Next (.symbol symbol) rest)
    (hmark : continues tiers (.symbol symbol) = false ∧ (.symbol symbol : TokenKind) ≠ .symbol .equal)
    (hfirst : startsExpression ⟨.symbol symbol, "", 0⟩ = false)
    (h : (optional (rule .expression)).Shows Runs rest ts flaws) :
    Passes (optionalBefore symbol) rest ts flaws := by
  obtain ⟨rfl, rfl⟩ | ⟨begins, reads⟩ := h
  · exact ComesTo.seen next (Passes.pure none)
  · exact ComesTo.unseen (begins.notNext hfirst rest)
      ((reads (next.stopsWhole hmark)).map fun _ _ => trivial)

theorem runs_return (h : Rule.returnStmt.phrase.Shows Runs rest ts flaws) :
    RunsStatement rest ts flaws := by
  obtain ⟨_, _, _, _, rfl, rfl, ⟨_, us, _, f, rfl, rfl, ⟨keyword, rfl, rfl, hkeyword⟩, value⟩, semicolon,
    rfl, rfl, hsemicolon⟩ := h
  refine runs_closed (p := returnStatement keyword) (by rw [hkeyword]; decide) (fun s hs => ?_) ?_
  · rw [statementRule_run _ _ hs, hkeyword]
  · rw [returnStatement_eq]
    exact (passes_optionalBefore ⟨semicolon, rest, rfl, hsemicolon⟩ (by decide) (by decide) value).bind
      fun e _ => .expect hsemicolon (Passes.pure _)

theorem runs_while (h : Rule.whileStmt.phrase.Shows Runs rest ts flaws) : RunsStatement rest ts flaws := by
  obtain ⟨_, us, _, g, rfl, rfl, ⟨_, _, _, _, rfl, rfl, ⟨_, vs, _, f, rfl, rfl, ⟨_, _, _, _, rfl, rfl,
    ⟨keyword, rfl, rfl, hkeyword⟩, opening, rfl, rfl, hopening⟩, condition⟩, closing, rfl, rfl, hclosing⟩,
    body⟩ := h
  obtain ⟨-, isOpen, body⟩ := body
  have condition : RunsExpression (closing :: (us ++ rest)) vs f := condition
  have behind : ComesTo _ IsFrame _ _ _ := comes_condition .afterWhile .afterCondition
    (k := fun condition => do return .whileLoop condition (← statement)) hopening condition hclosing
    fun condition => ⟨_, rfl⟩
  have head : ComesTo statement IsFrame _ (keyword :: _) _ := comes_by_rule (fun s hs => by
    rw [statementRule_run _ _ hs, hkeyword]
    rfl) behind
  refine ⟨⟨keyword, _, rfl, by rw [hkeyword]; decide⟩, isOpen, ?_⟩
  simpa using Spans.framed head body

theorem runs_if (h : Rule.ifStmt.phrase.Shows Runs rest ts flaws) : RunsStatement rest ts flaws := by
  obtain ⟨_, xs, _, k, rfl, rfl, ⟨_, us, _, g, rfl, rfl, ⟨_, _, _, _, rfl, rfl, ⟨_, vs, _, f, rfl, rfl,
    ⟨_, _, _, _, rfl, rfl, ⟨keyword, rfl, rfl, hkeyword⟩, opening, rfl, rfl, hopening⟩, condition⟩, closing,
    rfl, rfl, hclosing⟩, branch⟩, other⟩ := h
  obtain ⟨-, isOpen, branch⟩ := branch
  have condition : RunsExpression (closing :: (us ++ (xs ++ rest))) vs f := condition
  have behind : ComesTo _ IsBranching _ _ _ := comes_condition .afterIf .afterIfCondition (k := branches)
    hopening condition hclosing fun condition => ⟨condition, rfl⟩
  have head : ComesTo statement IsBranching _ (keyword :: _) _ := comes_by_rule (fun s hs => by
    rw [statementRule_run _ _ hs, hkeyword]
    rfl) behind
  refine ⟨⟨keyword, _, rfl, by rw [hkeyword]; decide⟩, ?_⟩
  have without := Spans.ifThen head branch
  obtain ⟨rfl, rfl⟩ | ⟨_, ws, _, g, rfl, rfl, ⟨elseKeyword, rfl, rfl, helse⟩, -, isOpen, other⟩ := other
  · exact ⟨true, by simpa using without⟩
  · obtain ⟨isOpen, attached⟩ := Spans.attach helse other without rfl rfl
    exact ⟨isOpen, by simpa using attached⟩

/-- The first clause of a loop with its semicolon, which may be all there is of it. -/
theorem passes_forInitializer
    (h : (rule .varDecl ||| rule .exprStmt ||| mark .semicolon).Shows Runs rest ts flaws) :
    Passes forInitializer rest ts flaws := by
  unfold forInitializer
  obtain (⟨keyword, us, rfl, hkeyword, named⟩ | ⟨begins, reads⟩) | ⟨semicolon, rfl, rfl, hsemicolon⟩ := h
  · exact ComesTo.left (notNext_cons (by rw [hkeyword]; decide))
      (.taken hkeyword (named.map fun _ _ => trivial))
  · exact ComesTo.left (begins.notNext (by decide) rest)
      (.left (begins.notNext (by decide) rest) (reads.map fun _ _ => trivial))
  · exact ComesTo.taken hsemicolon (Passes.pure none)

theorem runs_for (h : Rule.forStmt.phrase.Shows Runs rest ts flaws) : RunsStatement rest ts flaws := by
  obtain ⟨_, ws, _, k, rfl, rfl, ⟨_, _, _, _, rfl, rfl, ⟨_, vs, _, j, rfl, rfl, ⟨_, _, _, _, rfl, rfl,
    ⟨_, us, _, g, rfl, rfl, ⟨_, xs, _, f, rfl, rfl, ⟨_, _, _, _, rfl, rfl, ⟨keyword, rfl, rfl, hkeyword⟩,
    opening, rfl, rfl, hopening⟩, first⟩, condition⟩, semicolon, rfl, rfl, hsemicolon⟩, step⟩, closing, rfl,
    rfl, hclosing⟩, body⟩ := h
  obtain ⟨-, isOpen, body⟩ := body
  have first := passes_forInitializer first
  have condition := passes_optionalBefore ⟨semicolon, _, rfl, hsemicolon⟩ (by decide) (by decide) condition
  have step := passes_optionalBefore ⟨closing, _, rfl, hclosing⟩ (by decide) (by decide) step
  have clauses : ComesTo (forStatement statement) IsFrame (ws ++ rest)
      (opening :: (xs ++ (us ++ semicolon :: (vs ++ [closing])))) (f ++ (g ++ (j ++ []))) := by
    rw [forStatement_eq]
    refine ComesTo.expect hopening (Over.bind (by simpa using first) fun _ _ => ?_)
    refine Over.bind (by simpa using condition) fun _ _ => .expect hsemicolon ?_
    exact Over.bind step fun _ _ => .expect hclosing (ComesTo.refl ⟨_, rfl⟩)
  have head : ComesTo statement IsFrame _ (keyword :: _) _ :=
    comes_by_rule (fun s hs => by rw [statementRule_run _ _ hs, hkeyword]) clauses
  refine ⟨⟨keyword, _, rfl, by rw [hkeyword]; decide⟩, isOpen, ?_⟩
  simpa using Spans.framed head body

/-! ## Declarations -/

/-- A declaration or method in front of a closing brace is read wherever one starts. -/
theorem over_inside {α : Type} {p : Parser α} (h : Passes p rest ts flaws)
    (begins : BeginsOutside [.symbol .rightBrace] ts) :
    Over (insideStep p) (fun o => ∃ a, o = some a) rest ts flaws := by
  have read : Over (some <$> p) (fun o => ∃ a, o = some a) rest ts flaws := h.map fun a _ => ⟨a, rfl⟩
  obtain ⟨token, us, rfl, htoken⟩ := begins
  exact ComesTo.of_unfold read fun _ hs =>
    insideStep_take p hs fun hkind => htoken (List.mem_singleton.mpr hkind)

theorem BeginsOutside.weaken {kinds kinds' : List TokenKind} (h : BeginsOutside kinds ts)
    (hkinds : kinds' ⊆ kinds) : BeginsOutside kinds' ts := by
  obtain ⟨token, us, rfl, htoken⟩ := h
  exact ⟨token, us, rfl, fun hmem => htoken (hkinds hmem)⟩

theorem BeginsOutside.notNext {kinds : List TokenKind} (h : BeginsOutside kinds ts) {kind : TokenKind}
    (hkind : kind ∈ kinds) (rest : List Token) : NotNext kind (ts ++ rest) := by
  obtain ⟨token, us, rfl, htoken⟩ := h
  exact notNext_cons fun heq => htoken (heq ▸ hkind)

theorem BeginsOutside.ne_nil {kinds : List TokenKind} (h : BeginsOutside kinds ts) : ts ≠ [] := by
  obtain ⟨token, us, rfl, -⟩ := h
  exact List.cons_ne_nil token us

/-- What stands in braces. -/
theorem passes_block {closing : Token} (hclosing : closing.kind = .symbol .rightBrace)
    (h : Repeated RunsDeclaration (closing :: rest) ts flaws) :
    Passes (block declaration) rest (ts ++ [closing]) flaws := by
  have inside : Passes (declarationsInside declaration) (closing :: rest) ts flaws := by
    refine Over.map (P := fun _ => True) ?_ fun _ _ => trivial
    refine over_collect (NotNext (.keyword .elseKw)) ?_
      (fun hdeclaration => hdeclaration.1.notNext (by decide) _) (notNext_cons (by rw [hclosing]; decide))
      (fun hs => insideStep_stop declaration hs hclosing) h
    rintro rest ts flaws ⟨begins, reads⟩ hrest
    exact ⟨begins.ne_nil, fun _ => over_inside (reads hrest) (begins.weaken (by decide))⟩
  have run : Passes (block declaration) rest (ts ++ [closing]) (flaws ++ []) :=
    Over.bind inside fun statements _ => .expect hclosing (Passes.pure statements)
  rwa [List.append_nil] at run

theorem runs_block (h : Rule.block.phrase.Shows Runs rest ts flaws) :
    RunsBehind (.symbol .leftBrace) (block declaration) rest ts flaws := by
  obtain ⟨_, _, _, _, rfl, rfl, ⟨_, us, _, f, rfl, rfl, ⟨opening, rfl, rfl, hopening⟩, body⟩, closing, rfl,
    rfl, hclosing⟩ := h
  refine ⟨opening, us ++ [closing], rfl, hopening, ?_⟩
  rw [List.nil_append, List.append_nil]
  exact passes_block hclosing body

theorem runs_exprStmt (h : Rule.exprStmt.phrase.Shows Runs rest ts flaws) :
    Begins startsExpression ts ∧ Passes expressionStatement rest ts flaws := by
  obtain ⟨us, _, f, _, rfl, rfl, value, semicolon, rfl, rfl, hsemicolon⟩ := h
  exact ⟨value.1.append _, comes_behind _ value hsemicolon (by decide) fun _ => Passes.pure _⟩

theorem runs_statement (h : Rule.statement.phrase.Shows Runs rest ts flaws) :
    RunsStatement rest ts flaws := by
  obtain (((((⟨begins, reads⟩ | h) | h) | h) | h) | h) | ⟨opening, us, rfl, hopening, body⟩ := h
  · obtain ⟨token, us, rfl, htoken⟩ := begins
    have byRule : Passes (statementRule statement declaration) rest (token :: us) flaws :=
      ComesTo.of_unfold reads fun _ hs =>
        statementRule_expression _ _ hs (not_mem_of_startsExpression htoken (by decide))
    have run : Passes statement rest (token :: us) flaws :=
      ComesTo.of_unfold byRule fun ends _ => statement_unfold ends
    exact ⟨⟨token, us, rfl, not_mem_of_startsExpression htoken (by decide)⟩, false, .closed run⟩
  · exact h
  · exact h
  · exact h
  · exact h
  · exact h
  · refine runs_closed (p := Stmt.block <$> block declaration) (by rw [hopening]; decide) (fun s hs => ?_)
      (body.map fun _ _ => trivial)
    rw [statementRule_run _ _ hs, hopening]

theorem runs_parameters
    (h : Items .tooManyParameters (ident.Shows Runs) 0 rest ts flaws) :
    RunsListed .tooManyParameters (expect .identifier .parameterName) rest ts flaws := by
  intro next
  refine over_listed (fun _ => True) (fun _ => trivial) ?_ trivial (next.notNext (by decide)) ?_ h
  · rintro rest _ _ ⟨name, rfl, rfl, hname⟩ -
    exact ⟨List.cons_ne_nil name [], (over_expect _ hname).imp fun _ _ => trivial⟩
  · cases h with
    | last h | more h =>
      obtain ⟨name, rfl, rfl, hname⟩ := h
      exact notNext_cons (by rw [hname]; decide)

theorem runs_arguments (h : Items .tooManyArguments RunsExpression 0 rest ts flaws) :
    RunsListed .tooManyArguments expression rest ts flaws := by
  intro next
  refine over_listed StopsWhole (fun hcomma => stopsWhole_cons (by rw [hcomma]; decide))
    (fun hitem hrest => ⟨hitem.1.ne_nil, hitem.2 hrest⟩) (next.stopsWhole (by decide))
    (next.notNext (by decide)) ?_ h
  cases h with
  | last h => exact h.1.notNext (by decide) _
  | more h => exact (h.1.append _).notNext (by decide) _

theorem runs_function (h : Rule.function.phrase.Shows Runs rest ts flaws) : RunsRoutine rest ts flaws := by
  obtain ⟨_, _, _, g, rfl, rfl, ⟨_, _, _, _, rfl, rfl, ⟨_, us, _, f, rfl, rfl, ⟨_, _, _, _, rfl, rfl,
    ⟨name, rfl, rfl, hname⟩, opening, rfl, rfl, hopening⟩, params⟩, closing, rfl, rfl, hclosing⟩, leftBrace,
    vs, rfl, hleftBrace, body⟩ := h
  refine ⟨⟨name, _, rfl, by rw [hname]; decide⟩, fun kind => ?_⟩
  have params := passes_listed ⟨closing, _, rfl, hclosing⟩ params
  have run : Passes (routine kind declaration) rest
      (name :: opening :: (us ++ closing :: leftBrace :: vs)) (f ++ g) := by
    refine ComesTo.expect hname (.expect hopening ?_)
    exact Over.bind params fun _ _ => .expect hclosing (.expect hleftBrace
      (body.last fun _ _ => Passes.pure _))
  simpa using run

theorem runs_varDecl (h : Rule.varDecl.phrase.Shows Runs rest ts flaws) :
    RunsBehind (.keyword .varKw) varDeclaration rest ts flaws := by
  obtain ⟨_, _, _, _, rfl, rfl, ⟨_, vs, _, g, rfl, rfl, ⟨_, _, _, _, rfl, rfl, ⟨keyword, rfl, rfl, hkeyword⟩,
    name, rfl, rfl, hname⟩, value⟩, semicolon, rfl, rfl, hsemicolon⟩ := h
  refine ⟨keyword, name :: (vs ++ [semicolon]), by simp, hkeyword, ?_⟩
  refine ComesTo.expect hname ?_
  obtain ⟨rfl, rfl⟩ | ⟨_, us, _, g, rfl, rfl, ⟨equal, rfl, rfl, hequal⟩, value⟩ := value
  · refine ComesTo.left (notNext_cons (by rw [hsemicolon]; decide)) ?_
    exact ComesTo.expect hsemicolon (Passes.pure _)
  · refine ComesTo.taken hequal ?_
    have run := (value.2 (stopsWhole_cons (by rw [hsemicolon]; decide))).map (f := some)
      (Q := fun _ => True) fun _ _ => trivial
    exact run.bind fun _ _ => .expect hsemicolon (Passes.pure _)

/-- A declaration is read as its body is, since nothing is wrong with it that would end it. -/
theorem runs_declaration_of (begins : BeginsOutside [.keyword .elseKw, .symbol .rightBrace] ts)
    (h : NotNext (.keyword .elseKw) rest → Passes (declarationBody statement declaration) rest ts flaws) :
    RunsDeclaration rest ts flaws := by
  refine ⟨begins, fun hrest => .of_run fun s ends hs => ?_⟩
  obtain ⟨t, n, -, run⟩ := (h hrest).run ends hs
  exact ⟨some t, n, trivial, (declaration_unfold ends).trans (recovering_ok run)⟩

/-- The first token says which rule a declaration is read by. -/
theorem runs_by_keyword {p : Parser Stmt}
    (hfirst : token.kind ∉ [TokenKind.keyword .elseKw, .symbol .rightBrace])
    (hp : ∀ s : State, s.rest = token :: (us ++ rest) →
      declarationBody statement declaration s = p { s with rest := us ++ rest })
    (h : Passes p rest us flaws) : RunsDeclaration rest (token :: us) flaws :=
  runs_declaration_of ⟨token, us, rfl, hfirst⟩ fun _ => ComesTo.of_cons h fun hs => hp _ hs

theorem runs_classDecl (h : Rule.classDecl.phrase.Shows Runs rest ts flaws) :
    RunsDeclaration rest ts flaws := by
  obtain ⟨_, _, _, _, rfl, rfl, ⟨_, us, _, f, rfl, rfl, ⟨_, _, _, _, rfl, rfl, ⟨_, _, _, _, rfl, rfl,
    ⟨keyword, rfl, rfl, hkeyword⟩, name, rfl, rfl, hname⟩, opening, rfl, rfl, hopening⟩, methods⟩, closing,
    rfl, rfl, hclosing⟩ := h
  have inside : Passes (methodsInside declaration) (closing :: rest) us f := by
    refine over_collect (fun _ => True) ?_ (fun _ => trivial) trivial
      (fun hs => insideStep_stop (routine .method declaration) hs hclosing) methods
    rintro rest ts flaws ⟨begins, reads⟩ -
    exact ⟨begins.ne_nil, fun _ => over_inside (reads .method) begins⟩
  have run : Passes (classDeclaration declaration) rest (name :: opening :: (us ++ [closing])) (f ++ []) := by
    rw [classDeclaration_eq]
    exact ComesTo.expect hname (.expect hopening
      (Over.bind inside fun _ _ => .expect hclosing (Passes.pure _)))
  have declared : RunsDeclaration rest (keyword :: _) _ := runs_by_keyword (by rw [hkeyword]; decide)
    (fun s hs => by rw [declarationBody_run _ _ hs, hkeyword]) run
  simpa using declared

theorem runs_funDecl (h : Rule.funDecl.phrase.Shows Runs rest ts flaws) : RunsDeclaration rest ts flaws := by
  obtain ⟨_, us, _, f, rfl, rfl, ⟨keyword, rfl, rfl, hkeyword⟩, -, reads⟩ := h
  refine runs_by_keyword (p := Stmt.funDecl <$> routine .function declaration) (by rw [hkeyword]; decide)
    (fun s hs => ?_) ((reads .function).map fun _ _ => trivial)
  rw [declarationBody_run _ _ hs, hkeyword]

theorem runs_declaration (h : Rule.declaration.phrase.Shows Runs rest ts flaws) :
    RunsDeclaration rest ts flaws := by
  obtain ((h | h) | ⟨keyword, us, rfl, hkeyword, reads⟩) | ⟨begins, isOpen, spans⟩ := h
  · exact h
  · exact h
  · refine runs_by_keyword (p := varDeclaration) (by rw [hkeyword]; decide) (fun s hs => ?_) reads
    rw [declarationBody_run _ _ hs, hkeyword]
  · refine runs_declaration_of (begins.weaken (by decide)) fun hrest => ?_
    obtain ⟨token, us, rfl, htoken⟩ := begins
    exact ComesTo.of_unfold (spans.passes fun _ => hrest) fun _ hs =>
      declarationBody_statement _ _ hs fun hmem => htoken (declarators_subset hmem)

theorem runs_program (h : Rule.program.phrase.Shows Runs rest ts flaws) (hrest : rest = []) :
    Passes program rest ts flaws := by
  subst hrest
  refine Over.map (P := fun _ => True) ?_ fun _ _ => trivial
  refine over_collect (NotNext (.keyword .elseKw)) ?_
    (fun hdeclaration => hdeclaration.1.notNext (by decide) _) (by rintro _ ⟨⟩) declarationStep_end h
  rintro rest ts flaws ⟨begins, reads⟩ hrest
  refine ⟨begins.ne_nil, fun _ => ?_⟩
  have read := (reads hrest).map (f := some) (Q := fun o => ∃ a, o = some a) fun a _ => ⟨a, rfl⟩
  refine ComesTo.of_unfold read fun _ hs => declarationStep_take ?_
  rw [hs]
  exact List.append_ne_nil_of_left_ne_nil begins.ne_nil rest

end

/-! ## All rules -/

theorem runs_tolerant : Tolerant Runs where
  parameters := runs_parameters
  arguments := runs_arguments
  operand := runs_operand
  rule {name _ _ _} hname hderives h := by
    cases name
    case program => exact runs_program h
    case declaration => exact runs_declaration h
    case classDecl => exact runs_classDecl h
    case funDecl => exact runs_funDecl h
    case function => exact runs_function h
    case varDecl => exact runs_varDecl h
    case statement => exact runs_statement h
    case exprStmt => exact runs_exprStmt h
    case forStmt => exact runs_for h
    case ifStmt => exact runs_if h
    case printStmt => exact runs_print h
    case returnStmt => exact runs_return h
    case whileStmt => exact runs_while h
    case block => exact runs_block h
    case parameters | arguments | assignment => cases hname
    case expression => exact h
    case logicOr => exact runs_operands rfl rfl tiers_apart.1 (fun _ _ _ => id) h
    case logicAnd => exact runs_operands rfl rfl tiers_apart.2.1 (fun _ _ _ => id) h
    case equality => exact runs_operands rfl rfl tiers_apart.2.2.1 (fun _ _ _ => id) h
    case comparison => exact runs_operands rfl rfl tiers_apart.2.2.2.1 (fun _ _ _ => id) h
    case term => exact runs_operands rfl rfl tiers_apart.2.2.2.2.1 (fun _ _ _ => id) h
    case factor => exact runs_operands rfl rfl tiers_apart.2.2.2.2.2.1 (fun _ _ _ => id) h
    case unary => exact runs_unary rfl rfl h
    case call => exact runs_call id rfl hderives h
    case primary => exact runs_primary rfl h

/-- Whatever derives from the lenient grammar is read, with some flaws or other. -/
theorem exists_runs {p : Phrase} {ts : List Token} (h : DerivesLeniently p ts) (rest : List Token) :
    ∃ flaws, p.Shows Runs rest ts flaws := by
  refine exists_shows runs_tolerant (fun {rest ts equal us flaws more} htarget hequal hvalue => ?_) h rest
  obtain ⟨assignable, target⟩ := htarget
  -- the flaws are whatever the parser notes, so it need not be known yet what derives a target
  by_cases h : assignable
  · exact ⟨_, runs_assignment hequal target hvalue fun ht _ => passes_assignmentTo (ht.mpr h) _ _⟩
  · exact ⟨_, runs_assignment hequal target hvalue fun ht _ =>
      passes_assignmentTo_other (fun hassigned => h (ht.mp hassigned)) _ _⟩

/-- What derives a target is read as one, however else it derives an operand. -/
theorem RunsOperand.assignable_of_target {assignable : Prop} {rest ts : List Token}
    {flaws : List SyntaxError} (h : RunsOperand (Parser.climb (Parser.prefixed expression) tiers)
      startsExpression (Stops tiers) assignable rest ts flaws) (hrest : Stops tiers rest)
    (htarget : DerivesLeniently Phrase.target ts) : assignable := by
  obtain ⟨hcall, hname⟩ := target_iff.mp htarget
  obtain ⟨others, call⟩ := exists_runs hcall rest
  have call : RunsCall rest ts others := call
  -- The parser gives one tree, of which both runs say what it is.
  have ends : State.Ends ⟨ts ++ rest, .eof 0, 0, []⟩ := rfl
  obtain ⟨t, n, ht, run⟩ := (h.reads hrest).run ends rfl
  obtain ⟨t', n', ht', run'⟩ := (((RunsOperand.of_call call).to_climb tiers).reads hrest).run ends rfl
  cases run.symm.trans run'
  exact ht.mp (ht'.mpr hname)

theorem closed_runs : Grammar.Closed Runs where
  toTolerant := runs_tolerant
  assigned {rest _ equal us _ _} htarget hequal hvalue h := by
    obtain ⟨assignable, target⟩ := htarget
    have stops : Stops tiers (equal :: us ++ rest) := by
      rintro _ ⟨⟩
      rw [hequal]
      decide
    have run := runs_assignment hequal target hvalue fun ht _ =>
      passes_assignmentTo (ht.mpr (target.assignable_of_target stops h)) _ _
    rwa [List.append_nil] at run
  misassigned htarget hequal hvalue h := by
    obtain ⟨assignable, target⟩ := htarget
    exact runs_assignment hequal target hvalue fun ht _ =>
      passes_assignmentTo_other (fun hassigned => h (target.target (ht.mp hassigned))) _ _

/-- A whole source is read to its end. -/
theorem program_of_flawed {n : OccurrenceId} {tokens : List Token} {flaws : List SyntaxError}
    (h : Flawed (.rule .program) [] (tokens.takeWhile (·.kind != .eof)) flaws) :
    ∃ body m, program (State.start n tokens) = .ok body ((State.start n tokens).past [] m flaws) := by
  have passes : Passes program [] _ flaws := shows_of_flawed closed_runs h rfl
  obtain ⟨body, m, -, run⟩ := passes.run (State.start_ends n tokens) (List.append_nil _).symm
  exact ⟨body, m, run⟩

end Lox.Parser

namespace Lox

open Lox.Grammar Lox.Grammar.Phrase Lox.Parser

/-- What derives from the grammar with any number of parameters and arguments, and with any operand in front
of an equals sign, is reported for its flaws and for nothing else: for each parameter or argument behind the
first eight, at its first token, and for each equals sign behind what is no target. Whatever its derivation,
the flaws are the same, and it is accepted just if there are none. Each is reported in these words. -/
theorem flaws_reported {tokens : List Token}
    (h : DerivesLeniently (rule .program) (tokens.takeWhile (·.kind != .eof))) (n : OccurrenceId) :
    (∀ flaws, Flawed (rule .program) [] (tokens.takeWhile (·.kind != .eof)) flaws ↔
      flaws = (parseProgram n tokens).errors) ∧
    ((∃ body, (parseProgram n tokens).result = .ok body) ↔ (parseProgram n tokens).errors = []) ∧
    ∀ e ∈ (parseProgram n tokens).errors, (e.issue, e.issue.message) ∈
      [(.tooManyParameters, "Cannot have more than 8 parameters."),
        (.tooManyArguments, "Cannot have more than 8 arguments."),
        (.invalidTarget, "Invalid assignment target.")] := by
  have reported : ∀ {flaws}, Flawed (rule .program) [] (tokens.takeWhile (·.kind != .eof)) flaws →
      flaws = (parseProgram n tokens).errors := fun hflaws => by
    obtain ⟨body, m, run⟩ := program_of_flawed (n := n) hflaws
    exact (run_errors run).symm
  obtain ⟨flaws, hflaws⟩ := exists_flawed h []
  have same := reported hflaws
  refine ⟨fun other => ⟨reported, fun hother => hother ▸ same ▸ hflaws⟩, ?_, ?_⟩
  · obtain ⟨body, m, run⟩ := program_of_flawed (n := n) hflaws
    rw [← same]
    exact ⟨fun ⟨_, hbody⟩ => (run_eq_of_ok run hbody).2, fun hnone => ⟨body, run_of_quiet run hnone⟩⟩
  · intro e he
    have worded : ∀ issue ∈ [SyntaxIssue.tooManyParameters, .tooManyArguments, .invalidTarget],
        (issue, issue.message) ∈ [(SyntaxIssue.tooManyParameters, "Cannot have more than 8 parameters."),
          (.tooManyArguments, "Cannot have more than 8 arguments."),
          (.invalidTarget, "Invalid assignment target.")] := by
      decide
    exact worded _ (isFlaw_of_flawed hflaws e (same ▸ he))

/-- A call with nine arguments, to which a value is assigned. -/
theorem flaws_reported_call :
    let a : Token := ⟨.identifier, "a", 1⟩
    let b : Token := ⟨.identifier, "b", 1⟩
    let comma : Token := ⟨.symbol .comma, ",", 1⟩
    let opening : Token := ⟨.symbol .leftParen, "(", 1⟩
    let closing : Token := ⟨.symbol .rightParen, ")", 1⟩
    let equal : Token := ⟨.symbol .equal, "=", 1⟩
    let semicolon : Token := ⟨.symbol .semicolon, ";", 1⟩
    let items := [a, comma, a, comma, a, comma, a, comma, a, comma, a, comma, a, comma, a, comma, b]
    let tokens := a :: opening :: items ++ [closing, equal, a, semicolon, .eof 1]
    let flaws : List SyntaxError := [⟨5, b, .tooManyArguments⟩, ⟨3, equal, .invalidTarget⟩]
    DerivesLeniently (rule .program) (tokens.takeWhile (·.kind != .eof)) ∧
      Flawed (rule .program) [] (tokens.takeWhile (·.kind != .eof)) flaws ∧
      (parseProgram 0 tokens).errors = flaws ∧ ¬ ∃ body, (parseProgram 0 tokens).result = .ok body := by
  intro a b comma opening closing equal semicolon items tokens flaws
  have primary {x : Token} (hx : x.kind = .identifier) : DerivesLeniently (rule .primary) [x] :=
    .rule (.left (.right (.terminal hx)))
  have value {x : Token} (hx : x.kind = .identifier) : DerivesLeniently (rule .assignment) [x] :=
    .rule (.right (.operand_of_call (.rule (.alone (primary hx)))))
  have argument {x : Token} (hx : x.kind = .identifier) : DerivesLeniently (rule .expression) [x] :=
    .rule (value hx)
  have item {us : List Token} (h : DerivesLeniently (separated (rule .expression)) us) :
      DerivesLeniently (separated (rule .expression)) (a :: comma :: us) :=
    .list_cons (argument rfl) rfl h
  have args : DerivesLeniently (rule .arguments) items := .rule (by
    iterate 8 apply item
    exact .alone (argument rfl))
  have opens : DerivesLeniently (mark .leftParen) [opening] := .terminal rfl
  have closes : DerivesLeniently (mark .rightParen) [closing] := .terminal rfl
  have ends : DerivesLeniently (mark .semicolon) [semicolon] := .terminal rfl
  have applied : DerivesLeniently Rule.call.lenient ([a] ++ ([opening] ++ items ++ [closing] ++ [])) :=
    .seq (primary rfl) (.oneOf (.left (.seq (.seq opens (.present args)) closes)) .noneOf)
  have sign : equal.kind = .symbol .equal := rfl
  have assigned := DerivesLeniently.assigned (.operand_of_call (.rule applied)) sign (value (x := a) rfl)
  have expression : DerivesLeniently (rule .expression) _ := .rule assigned
  have statement : DerivesLeniently (rule .statement) (tokens.takeWhile (·.kind != .eof)) :=
    .rule (.left (.left (.left (.left (.left (.left (.rule (.seq expression ends))))))))
  have declaration : DerivesLeniently (rule .declaration) _ := .rule (.right statement)
  have derives : DerivesLeniently (rule .program) (tokens.takeWhile (·.kind != .eof)) :=
    .rule (.many_snoc .noneOf declaration)
  obtain ⟨reported, accepted, -⟩ := flaws_reported derives 0
  have errors : (parseProgram 0 tokens).errors = flaws := by decide +kernel
  have refused : ¬ ∃ body, (parseProgram 0 tokens).result = .ok body := fun h =>
    List.cons_ne_nil _ _ (errors.symm.trans (accepted.mp h))
  exact ⟨derives, (reported flaws).mpr errors.symm, errors, refused⟩

end Lox
