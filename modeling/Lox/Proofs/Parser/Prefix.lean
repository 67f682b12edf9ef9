import Lox.Proofs.Parser.Lookahead
import Lox.Proofs.Parser.Viable
import Lox.Proofs.Syntax.Canonical

/-!
# The first error is at the first token that cannot follow

The parser of programs follows the grammar, so the tokens in front of its first error are the front of a
program. And since it looks no further than the next token, nothing that begins with the tokens up to the
error is a program. The error is where the source stops being one (`first_error_located`).
-/

namespace Lox.Parser

open Grammar Grammar.Phrase

variable {α : Type}

/-! ## Statements and declarations -/

theorem derives_word_cons {keyword : Keyword} {φ : Phrase} {token : Token} {ts : List Token}
    (htoken : token.kind = .keyword keyword) (h : Derives φ ts) :
    Derives (word keyword ++ φ) (token :: ts) :=
  .seq (derives_word htoken) h

theorem derives_mark_cons {symbol : Symbol} {φ : Phrase} {token : Token} {ts : List Token}
    (htoken : token.kind = .symbol symbol) (h : Derives φ ts) :
    Derives (mark symbol ++ φ) (token :: ts) :=
  .seq (derives_mark htoken) h

theorem viable_optionalBefore (symbol : Symbol) :
    Viable (optional (rule .expression)) (optionalBefore symbol) :=
  (Viable.sees _).behind fun _ => .ite (.pure .absent none)
    ((viable_expression.map some).mono .present)

theorem viable_varDeclaration :
    Viable (ident ++ (optional (mark .equal ++ rule .expression) ++ mark .semicolon)) varDeclaration := by
  have ended : ∀ name (value : Option Expr), Viable (mark .semicolon) (do
      let _ ← expectMark .semicolon .afterVariable
      return Stmt.varDecl name value) := fun name value => (Viable.expectMark _ _).map _
  refine (Viable.name _).bind fun name => ?_
  refine Viable.accept (φ := rule .expression ++ mark .semicolon)
    ((viable_expression.map some).bind (ended name)) ?_ fun hkind h => ?_
  · refine (ended name none).mono fun h => ?_
    exact .seq .absent h
  · obtain ⟨us, vs, rfl, hus, hvs⟩ := h.of_seq
    exact .seq (.present (.seq (derives_mark hkind) hus)) hvs

theorem viable_expressionStatement : Viable (rule .exprStmt) expressionStatement :=
  (viable_expression.bind fun value => (Viable.expectMark .semicolon .afterExpression).map
    fun _ => Stmt.expression value).mono fun h => .rule h

theorem viable_printStatement : Viable (rule .expression ++ mark .semicolon) printStatement :=
  viable_expression.bind fun value => (Viable.expectMark .semicolon .afterValue).map
    fun _ => Stmt.print value

theorem viable_returnStatement (keyword : Token) :
    Viable (optional (rule .expression) ++ mark .semicolon) (returnStatement keyword) := by
  rw [returnStatement_eq]
  exact (viable_optionalBefore _).bind fun value => (Viable.expectMark _ _).map _

theorem viable_forInitializer :
    Viable (rule .varDecl ||| rule .exprStmt ||| mark .semicolon) forInitializer := by
  unfold forInitializer
  refine .accept (φ := Phrase.nothing) (.pure .noneMore none) ?_ fun hkind h => ?_
  · refine .accept (viable_varDeclaration.map some) ((viable_expressionStatement.map some).mono fun h =>
      .left (.right h)) fun hkind h => ?_
    refine .left (.left (.rule ?_))
    simpa only [derives_assoc, Rule.phrase] using derives_word_cons hkind h
  · rw [derives_nothing h]
    exact .right (derives_mark hkind)

section

variable {st : Parser Stmt} {d : Parser (Option Stmt)} [Forward st] [Forward d]

section

variable (hst : Viable (rule .statement) st)

include hst

theorem viable_ifStatement : Viable (mark .leftParen ++ (rule .expression ++ (mark .rightParen ++
    (rule .statement ++ optional (word .elseKw ++ rule .statement))))) (ifStatement st) := by
  unfold ifStatement
  refine (Viable.expectMark _ _).bind fun _ => viable_expression.bind fun condition =>
    (Viable.expectMark _ _).bind fun _ => hst.bind fun thenBranch => ?_
  refine .accept (hst.map fun elseBranch => Stmt.ifElse condition thenBranch elseBranch)
    (.pure .absent _) fun hkind h => ?_
  exact .present (.seq (derives_word hkind) h)

theorem viable_whileStatement : Viable (mark .leftParen ++ (rule .expression ++ (mark .rightParen ++
    rule .statement))) (whileStatement st) :=
  (Viable.expectMark _ _).bind fun _ => viable_expression.bind fun _ =>
    (Viable.expectMark _ _).bind fun _ => hst.map _

theorem viable_forStatement : Viable (mark .leftParen ++
    ((rule .varDecl ||| rule .exprStmt ||| mark .semicolon) ++ (optional (rule .expression) ++
      (mark .semicolon ++ (optional (rule .expression) ++ (mark .rightParen ++ rule .statement))))))
    (forStatement st) := by
  rw [forStatement_eq]
  exact (Viable.expectMark _ _).bind fun _ => viable_forInitializer.bind fun first =>
    (viable_optionalBefore _).bind fun condition => (Viable.expectMark _ _).bind fun _ =>
    (viable_optionalBefore _).bind fun step => (Viable.expectMark _ _).bind fun _ => hst.map _

end

theorem viable_insideStep {α : Type} {φ : Phrase} {p : Parser α} [Forward p] (h : Viable (optional φ) p) :
    Viable (optional φ) (insideStep p) :=
  (Viable.sees _).behind fun _ => Viable.atEnd.behind fun _ => .ite (.pure .absent none) (h.map some)

variable (hd : Viable (optional (rule .declaration)) d)

include hd

omit [Forward st] in
theorem viable_block : Viable (many (rule .declaration) ++ mark .rightBrace) (block d) := by
  have inside : Viable (many (rule .declaration)) (declarationsInside d) :=
    (Viable.collect fun _ => viable_insideStep hd).map fun read => read.filterMap id
  exact inside.bind fun statements => (Viable.expectMark _ _).map _

omit [Forward st] in
theorem viable_routine (kind : Routine) : Viable (rule .function) (routine kind d) := by
  have parameters : Viable (optional (rule .parameters))
      (listed .tooManyParameters (expect .identifier .parameterName)) :=
    (Viable.listed (.inl rfl) (Viable.name _)).mono fun h => by
      obtain rfl | h := h.of_optional
      · exact .absent
      · exact .present (.rule h)
  have body : ∀ (name : Token) (params : List Token), Viable (rule .block) (do
      let _ ← expectMark .leftBrace (.beforeRoutineBody kind)
      let body ← block d
      return (⟨name, params, body⟩ : FunctionDecl)) := fun name params =>
    ((Viable.expectMark _ _).bind fun _ => (viable_block hd).map _).mono fun h =>
      .rule (derives_assoc.mp h)
  unfold routine
  refine ((Viable.name _).bind fun name => (Viable.expectMark _ _).bind fun _ =>
    parameters.bind fun params => (Viable.expectMark _ _).bind fun _ => body name params).mono fun h => ?_
  refine .rule ?_
  simpa only [derives_assoc, Rule.phrase] using h

omit [Forward st] in
theorem viable_classDeclaration : Viable (ident ++ (mark .leftBrace ++ (many (rule .function) ++
    mark .rightBrace))) (classDeclaration d) := by
  have step := viable_insideStep ((viable_routine hd .method).mono .present)
  rw [classDeclaration_eq]
  exact (Viable.name _).bind fun name => (Viable.expectMark _ _).bind fun _ =>
    (Viable.collect fun _ => step).bind fun methods => (Viable.expectMark _ _).map _

theorem viable_statementRule (hst : Viable (rule .statement) st) :
    Viable (rule .statement) (statementRule st d) := by
  intro s ends plain
  refine Follows.of_eq ?_ (bind_ok (here_run s))
  refine Viable.accept (viable_forStatement hst) ?_ (fun hkind h => .rule ?_) s ends plain
  · refine .accept (viable_ifStatement hst) ?_ fun hkind h => .rule ?_
    · refine .accept (viable_whileStatement hst) ?_ fun hkind h => .rule ?_
      · refine .accept (viable_returnStatement s.here) ?_ fun hkind h => .rule ?_
        · refine .accept ((viable_block hd).map Stmt.block) ?_ fun hkind h => .rule ?_
          · refine .accept viable_printStatement ?_ fun hkind h => .rule ?_
            · exact viable_expressionStatement.mono fun h =>
                .rule (.left (.left (.left (.left (.left (.left h))))))
            · have all : Derives Rule.printStmt.phrase _ := derives_assoc.mp (derives_word_cons hkind h)
              exact .left (.left (.left (.right (.rule all))))
          · have all : Derives Rule.block.phrase _ := derives_assoc.mp (derives_mark_cons hkind h)
            exact .right (.rule all)
        · have all : Derives Rule.returnStmt.phrase _ := derives_assoc.mp (derives_word_cons hkind h)
          exact .left (.left (.right (.rule all)))
      · have all := derives_word_cons hkind h
        simp only [derives_assoc] at all
        exact .left (.right (.rule all))
    · have all := derives_word_cons hkind h
      simp only [derives_assoc] at all
      exact .left (.left (.left (.left (.right (.rule all)))))
  · have all := derives_word_cons hkind h
    simp only [derives_assoc] at all
    exact .left (.left (.left (.left (.left (.right (.rule all))))))

omit [Forward st] in
theorem viable_declarationBody (hst : Viable (rule .statement) st) :
    Viable (rule .declaration) (declarationBody st d) := by
  refine .accept (viable_classDeclaration hd) (.accept ((viable_routine hd .function).map Stmt.funDecl)
    (.accept viable_varDeclaration (hst.mono fun h => ?_) ?_) ?_) ?_
  · exact .rule (.right h)
  · refine fun hkind h => .rule (.left (.right (.rule ?_)))
    simpa only [derives_assoc, Rule.phrase] using derives_word_cons hkind h
  · refine fun hkind h => .rule (.left (.left (.right (.rule ?_))))
    exact derives_word_cons hkind h
  · refine fun hkind h => .rule (.left (.left (.left (.rule ?_))))
    simpa only [derives_assoc, Rule.phrase] using derives_word_cons hkind h

end

/-- Recovery comes behind the first error. -/
theorem viable_recovering {φ : Phrase} {p : Parser α} [Forward p] (h : Viable φ p) :
    Viable φ (recovering p) := fun s ends plain =>
  { takes := fun hgives => by
      obtain ⟨a, -, hgives⟩ := recovering_gives hgives
      exact (h s ends plain).takes hgives
    offends := fun he => by
      rw [noticed_recovering] at he
      exact (h s ends plain).offends he }

theorem viable_upTo (depth : Nat) : Viable (rule .statement) (statementUpTo depth) ∧
    Viable (optional (rule .declaration)) (declarationUpTo depth) := by
  induction depth with
  | zero => exact ⟨.fail _, .pure .absent none⟩
  | succ depth ih =>
    have statement := viable_statementRule ih.2 ih.1
    exact ⟨statement, (viable_recovering (viable_declarationBody ih.2 statement)).mono .present⟩

theorem viable_program : Viable (rule .program) program := by
  have declaration : Viable (optional (rule .declaration)) declaration := fun s ends plain =>
    ((viable_upTo (s.rest.length + 1)).2 s ends plain).of_eq rfl
  have step : ∀ _ : Nat, Viable (optional (rule .declaration)) (do
      if ← atEnd then return none else return some (← Parser.declaration)) := fun _ =>
    Viable.atEnd.behind fun _ => .ite (.pure .absent none) (declaration.map some)
  exact ((Viable.collect step).map fun read => read.filterMap id).mono fun h => .rule h

/-- A parser notices something just if it makes nothing of the tokens. -/
theorem noticed_iff {p : Parser α} [Forward p] (n : OccurrenceId) (tokens : List Token) :
    noticed (State.start n tokens) (p (State.start n tokens)) = [] ↔
      ∃ a, (p.run n tokens).result = .ok a := by
  obtain ⟨herror, hok⟩ := run_result p n tokens
  refine ⟨hok, fun ⟨a, ha⟩ => ?_⟩
  by_contra hnoticed
  nomatch ha.symm.trans (herror hnoticed)

end Lox.Parser

namespace Lox

open Lox.Parser Grammar Grammar.Phrase

/-- Every equals sign stands directly behind `var` and a name. -/
def EqualsInitialize (ts : List Token) : Prop :=
  ∀ before equal after, ts = before ++ equal :: after → equal.kind = .symbol .equal →
    ∃ front keyword name, before = front ++ [keyword, name] ∧ keyword.kind = .keyword .varKw ∧
      name.kind = .identifier

theorem EqualsInitialize.plain {ts us : List Token} (h : EqualsInitialize ts) (hus : us <+: ts) :
    Plain us := by
  obtain ⟨behind, rfl⟩ := hus
  intro before name equal after hus hequal
  obtain ⟨front, keyword, name', hfront, hkeyword, hname⟩ :=
    h (before ++ [name]) equal (after ++ behind) (by rw [hus]; simp) hequal
  have same : before ++ [name] = (front ++ [keyword]) ++ [name'] := by rw [hfront]; simp
  obtain ⟨rfl, hnames⟩ := List.append_inj' same rfl
  obtain rfl : name = name' := (List.cons_eq_cons.mp hnames).1
  refine ⟨hname, fun token htoken => ?_⟩
  rw [List.getLast?_append] at htoken
  cases htoken
  exact hkeyword

/-- A program is accepted if its tokens derive one, wherever the numbering begins. -/
theorem accepted_iff {n : OccurrenceId} {tokens : List Token} :
    (∃ body, (parseProgram n tokens).result = .ok body) ↔
      Derives (rule .program) (tokens.takeWhile (·.kind != .eof)) := by
  rw [derives_program_iff (n := n)]
  constructor
  · rintro ⟨body, hbody⟩
    exact ⟨body, (parseProgram n tokens).nextId, parseProgram_eq_ok.mp (by rw [← hbody])⟩
  · rintro ⟨body, n', h⟩
    exact ⟨body, by rw [parseProgram_eq_ok.mpr h]⟩

/-- What derives something has no end among its tokens. -/
theorem takeWhile_of_derives {φ : Phrase} {ts : List Token} (h : Derives φ ts) :
    ts.takeWhile (·.kind != .eof) = ts :=
  List.takeWhile_eq_self_iff.mpr fun token htoken => bne_iff_ne.mpr (derives_ne_eof h token htoken)

/-- The first error of a source, if it is not about the number of items and if all assignments are
initializations, is at the first token that cannot follow: what stands in front of it begins some program,
and what begins with the tokens up to it is none. -/
theorem first_error_located (n m : OccurrenceId) {tokens : List Token} (hequals : EqualsInitialize tokens)
    {e : SyntaxError} {later : List SyntaxError}
    (h : (parseProgram n tokens).result = .error (e :: later)) (hlimit : ¬ e.IsLimit) :
    ∃ before behind, tokens.takeWhile (·.kind != .eof) = before ++ behind ∧
      e.remaining = behind.length ∧ (behind = [] → e.token.kind = .eof) ∧
      (∃ after body, (parseProgram m (before ++ after)).result = .ok body) ∧
      ∀ token rest, behind = token :: rest → e.token = token ∧
        ∀ after body, (parseProgram m (before ++ token :: after)).result ≠ .ok body := by
  have ends := State.start_ends n tokens
  obtain ⟨herror, hok⟩ := run_result program n tokens
  have hnoticed : noticed (State.start n tokens) (program (State.start n tokens)) = e :: later := by
    by_cases hquiet : noticed (State.start n tokens) (program (State.start n tokens)) = []
    · obtain ⟨body, hbody⟩ := hok hquiet
      nomatch h.symm.trans hbody
    · exact Except.error.inj ((herror hquiet).symm.trans h)
  have first : e ∈ (noticed (State.start n tokens) (program (State.start n tokens))).head? := by
    rw [hnoticed]
    rfl
  have plain : Plain (State.start n tokens).rest := hequals.plain (List.takeWhile_prefix _)
  obtain ⟨hexpected, before, behind, ws, hrest, hbefore, hderives⟩ :=
    (viable_program _ ends plain).offends first hlimit
  refine ⟨before, behind, hrest, hbefore.remaining, fun hempty => ?_, ⟨ws, ?_⟩, ?_⟩
  · rw [hbefore.token, hempty]
    exact ends
  · exact accepted_iff.mpr ((takeWhile_of_derives hderives).symm ▸ hderives)
  · rintro token rest rfl
    refine ⟨hbefore.token, fun after body haccepted => ?_⟩
    -- the run on the other source would be quiet, but it meets the same error or an earlier one
    have quiet := (noticed_iff n _).mpr
      ((accepted_iff (n := n)).mpr ((accepted_iff (n := m)).mp ⟨body, haccepted⟩))
    have words : ∀ word ∈ before ++ [token], word.kind ≠ .eof := fun word hword => by
      have all : word ∈ tokens.takeWhile (·.kind != .eof) := by
        rw [show tokens.takeWhile (·.kind != .eof) = _ from hrest]
        simp only [List.mem_append, List.mem_cons, List.not_mem_nil, or_false] at hword ⊢
        exact hword.imp_right .inl
      have hkind := List.mem_takeWhile_imp all
      exact bne_iff_ne.mp hkind
    have abreast : (State.start n tokens).Abreast rest (after.takeWhile (·.kind != .eof))
        (State.start n (before ++ token :: after)) := by
      refine ⟨⟨before, token, hrest, ?_⟩, rfl, ends, State.start_ends n _⟩
      have taken : (before ++ [token] ++ after).takeWhile (·.kind != .eof) =
          before ++ [token] ++ after.takeWhile (·.kind != .eof) :=
        List.takeWhile_append_of_pos fun word hword => bne_iff_ne.mpr (words word hword)
      simpa [State.start] using taken
    refine (Local.parallel (p := program) _ _).fails abreast first hexpected ?_ quiet
    rw [hbefore.remaining]
    exact Nat.lt_succ_self _

/-- A semicolon is missing in front of `print`. -/
theorem first_error_located_print :
    let var : Token := ⟨.keyword .varKw, "var", 1⟩
    let print : Token := ⟨.keyword .printKw, "print", 2⟩
    let a : Token := ⟨.identifier, "a", 1⟩
    let equal : Token := ⟨.symbol .equal, "=", 1⟩
    let tokens := [var, a, equal, a, print, a, .eof 2]
    let e : SyntaxError := ⟨2, print, .expected (.mark .semicolon .afterVariable)⟩
    EqualsInitialize tokens ∧ (∃ later, (parseProgram 0 tokens).result = .error (e :: later)) ∧ ¬ e.IsLimit ∧
      ∃ before behind, tokens.takeWhile (·.kind != .eof) = before ++ behind ∧ 2 = behind.length ∧
        (∃ after body, (parseProgram 0 (before ++ after)).result = .ok body) ∧
        ∀ token rest, behind = token :: rest → print = token ∧
          ∀ after body, (parseProgram 0 (before ++ token :: after)).result ≠ .ok body := by
  intro var print a equal tokens e
  have equals : EqualsInitialize tokens := by
    intro before sign after htokens hsign
    obtain _ | ⟨x, _ | ⟨y, _ | ⟨z, before⟩⟩⟩ := before <;>
      simp only [tokens, List.nil_append, List.cons_append, List.cons.injEq] at htokens
    · obtain ⟨rfl, -⟩ := htokens
      nomatch hsign
    · obtain ⟨-, rfl, -⟩ := htokens
      nomatch hsign
    · obtain ⟨rfl, rfl, -⟩ := htokens
      exact ⟨[], _, _, rfl, rfl, rfl⟩
    · obtain ⟨-, -, -, htokens⟩ := htokens
      have absent : ∀ token ∈ [a, print, a, Token.eof 2], token.kind ≠ .symbol .equal := by decide
      exact absurd hsign (absent sign (htokens ▸ List.mem_append_right _ List.mem_cons_self))
  have rejected : (parseProgram 0 tokens).result = .error [e] := rfl
  have unlimited : ¬ e.IsLimit := by rintro (h | h) <;> nomatch h
  obtain ⟨before, behind, htokens, hremaining, -, hfront, hbehind⟩ :=
    first_error_located 0 0 equals rejected unlimited
  exact ⟨equals, ⟨[], rejected⟩, unlimited, before, behind, htokens, hremaining, hfront, hbehind⟩

end Lox
