import Lox.Proofs.Syntax.Derivation

/-!
# The parser accepts what derives from the grammar

A tree gives a derivation of the tokens that spell it, rule by rule. With the other direction and what
the parser is known to read, the parser accepts exactly what the documented grammar derives.
-/

namespace Lox.Grammar

open Phrase Lox.Parser

/-! ## Expressions -/

/-- Holds of the trees that can be assigned to. -/
def IsTarget : Expr → Prop
  | .var .. | .get .. => True
  | _ => False

/-- The rule for operands with the operators of some tiers. Operators make no targets. -/
inductive Level : List Tier → Rule → Prop
  | unary : Level [] .unary
  | tier {tier tighter operand operators name} : name.phrase = operands operand operators →
      operators.choices = some tier.operators →
      (∀ left operator right, ¬ IsTarget (tier.node left operator right)) →
      Level tighter operand → Level (tier :: tighter) name

theorem level_tiers : Level tiers .logicOr :=
  .tier rfl rfl (fun _ _ _ => id) (.tier rfl rfl (fun _ _ _ => id) (.tier rfl rfl (fun _ _ _ => id)
    (.tier rfl rfl (fun _ _ _ => id) (.tier rfl rfl (fun _ _ _ => id)
      (.tier rfl rfl (fun _ _ _ => id) .unary)))))

/-- The tokens derive the rule, and a target if they spell one. -/
def DerivesOperand (name : Rule) (e : Expr) (ts : List Token) : Prop :=
  Derives (rule name) ts ∧ (IsTarget e → Derives target ts)

/-- The tokens of an expression derive the rule that it is read by. -/
def DerivesRule : ExprRule → Expr → List Token → Prop
  | .whole, _, ts => Derives (rule .expression) ts
  | .climb tiers, e, ts => ∀ name, Level tiers name → DerivesOperand name e ts
  | .prefixed, e, ts => DerivesOperand .unary e ts
  | .applied, e, ts => DerivesOperand .call e ts
  | .primary, e, ts => DerivesOperand .primary e ts

theorem derives_word {keyword : Keyword} {token : Token} (h : token.kind = .keyword keyword) :
    Derives (word keyword) [token] := .terminal h

theorem derives_mark {symbol : Symbol} {token : Token} (h : token.kind = .symbol symbol) :
    Derives (mark symbol) [token] := .terminal h

theorem derives_ident {token : Token} (h : token.kind = .identifier) : Derives ident [token] :=
  .terminal h

theorem derives_literal {token : Token} {value : Literal} (h : token.kind.literal? = some value) :
    Derives (rule .primary) [token] := by
  refine .rule ?_
  unfold TokenKind.literal? at h
  split at h
  · next hkind => exact .left (.left (.left (.left (.right (derives_word hkind)))))
  · next hkind => exact .left (.left (.left (.left (.left (.right (derives_word hkind))))))
  · next hkind => exact .left (.left (.left (.right (derives_word hkind))))
  · next value hkind =>
    exact .left (.left (.left (.left (.left (.left (.left (.terminal ⟨value, hkind⟩)))))))
  · next contents hkind =>
    exact .left (.left (.left (.left (.left (.left (.right (.terminal ⟨contents, hkind⟩)))))))
  · cases h

theorem derives_sign {token : Token} (h : isPrefixOperator token = true) :
    Derives (mark .bang ||| mark .minus) [token] := by
  unfold isPrefixOperator at h
  obtain h | h := Bool.or_eq_true_iff.mp h
  · exact .left (derives_mark (eq_of_beq h))
  · exact .right (derives_mark (eq_of_beq h))

theorem derives_name {token : Token} (h : token.kind = .identifier) : Derives target [token] := by
  have name := Derives.seq (.absent (p := rule .call ++ mark .dot)) (derives_ident h)
  exact name

/-- Calls and properties go on behind what is called. -/
theorem derives_applied {ts us : List Token} (h : Derives (rule .call) ts)
    (h' : Derives
      (mark .leftParen ++ optional (rule .arguments) ++ mark .rightParen ||| mark .dot ++ ident) us) :
    Derives (rule .call) (ts ++ us) :=
  .rule (h.of_rule.append_many_snoc h')

mutual

/-- What spells an expression derives its rule. -/
theorem derives_of_reads {name : ExprRule} {n n' : Nat} {ts : List Token} {e : Expr} :
    ReadsExpr name n ts e n' → DerivesRule name e ts
  | .literal h => ⟨derives_literal h, False.elim⟩
  | .this h => ⟨.rule (.left (.left (.right (derives_word h)))), False.elim⟩
  | .var h => ⟨.rule (.left (.right (derives_ident h))), fun _ => derives_name h⟩
  | .grouping hopening hinner hclosing =>
    ⟨.rule (.right (.seq (.seq (derives_mark hopening) (derives_of_reads hinner))
      (derives_mark hclosing))), False.elim⟩
  | .primary h => by
    have ⟨operand, assignable⟩ := derives_of_reads h
    exact ⟨.rule operand.append_many_nil, assignable⟩
  | .call hcallee hopening harguments hclosing => by
    have callee := (derives_of_reads hcallee).1
    have arguments := derives_of_arguments harguments
    refine ⟨?_, False.elim⟩
    simpa using derives_applied callee
      (.left (.seq (.seq (derives_mark hopening) arguments) (derives_mark hclosing)))
  | .get hobject hdot hname => by
    have object := (derives_of_reads hobject).1
    refine ⟨?_, fun _ => ?_⟩
    · exact derives_applied object (.right (.seq (derives_mark hdot) (derives_ident hname)))
    · have property := Derives.seq (.present (.seq object (derives_mark hdot)))
        (derives_ident hname)
      rwa [List.append_assoc] at property
  | .applied h => by
    have ⟨operand, assignable⟩ := derives_of_reads h
    exact ⟨.rule (.right operand), assignable⟩
  | .unary hoperator h =>
    ⟨.rule (.left (.seq (derives_sign hoperator) (derives_of_reads h).1)), False.elim⟩
  -- below all tiers there are only unary expressions
  | .prefixed h => fun _ level => by
    have operand := derives_of_reads h
    cases level
    exact operand
  | .operand h => fun _ level => by
    have operand := derives_of_reads h
    cases level with
    | tier hphrase _ _ level =>
      obtain ⟨hrule, assignable⟩ := operand _ level
      exact ⟨.rule (hphrase ▸ hrule.append_many_nil), assignable⟩
  | .operator hleft hoperator hright => fun _ level => by
    have left := derives_of_reads hleft _ level
    have right := derives_of_reads hright
    cases level with
    | tier hphrase hchoices hnode level =>
      refine ⟨.rule ?_, fun h => (hnode _ _ _ h).elim⟩
      have before := left.1.of_rule
      rw [hphrase] at before ⊢
      exact before.append_many_snoc
        (.seq (.of_choices hchoices (List.contains_iff_mem.mp hoperator)) (right _ level).1)
  | .loosest h => .rule (.rule (.right (derives_of_reads h _ level_tiers).1))
  | .assign htarget hequal hvalue => by
    have assignable := (derives_of_reads htarget _ level_tiers).2 trivial
    have value : Derives (rule .assignment) _ := (derives_of_reads hvalue).of_rule
    refine .rule (.rule (.left ?_))
    simpa using Derives.seq (.seq assignable (derives_mark hequal)) value
  | .set htarget hequal hvalue => by
    have assignable := (derives_of_reads htarget _ level_tiers).2 trivial
    have value : Derives (rule .assignment) _ := (derives_of_reads hvalue).of_rule
    refine .rule (.rule (.left ?_))
    simpa using Derives.seq (.seq assignable (derives_mark hequal)) value

theorem derives_of_arguments {n n' : Nat} {ts : List Token} {es : List Expr} :
    ReadsArguments n ts es n' → Derives (optional (rule .arguments)) ts
  | .none => .absent
  | .some h hlength => by
    obtain ⟨us, vs, rfl, first, more⟩ := derives_of_items h (maxArguments - 1) hlength
    exact .present (.rule (.seq first more))

theorem derives_of_items {n n' : Nat} {ts : List Token} {es : List Expr} :
    ReadsItems n ts es n' → ∀ bound, es.length ≤ bound + 1 → ∃ us vs, ts = us ++ vs ∧
      Derives (rule .expression) us ∧
      Derives (atMost bound (mark .comma ++ rule .expression)) vs
  | .last h, _, _ => ⟨_, [], (List.append_nil _).symm, derives_of_reads h, .noneMore⟩
  | .more h hcomma hmore, 0, hlength => by
    cases hmore <;> simp at hlength
  | .more h hcomma hmore, bound + 1, hlength => by
    obtain ⟨us, vs, rfl, second, more⟩ :=
      derives_of_items hmore bound (Nat.le_of_succ_le_succ hlength)
    exact ⟨_, _, rfl, derives_of_reads h, .oneMore (.seq (derives_mark hcomma) second) more⟩

end

theorem derives_optional {n n' : Nat} {ts : List Token} {o : Option Expr}
    (h : ReadsOptional n ts o n') : Derives (optional (rule .expression)) ts := by
  cases h with
  | none => exact .absent
  | some h => exact .present (derives_of_reads h)

/-! ## Statements and declarations -/

theorem derives_of_names {ts names : List Token} :
    ReadsNames ts names → ∀ bound, names.length ≤ bound + 1 → ∃ us vs, ts = us ++ vs ∧
      Derives ident us ∧ Derives (atMost bound (mark .comma ++ ident)) vs
  | .last h, _, _ => ⟨_, [], (List.append_nil _).symm, derives_ident h, .noneMore⟩
  | .more h hcomma hmore, 0, hlength => by
    cases hmore <;> simp at hlength
  | .more h hcomma hmore, bound + 1, hlength => by
    obtain ⟨us, vs, rfl, second, more⟩ :=
      derives_of_names hmore bound (Nat.le_of_succ_le_succ hlength)
    exact ⟨[_], _, rfl, derives_ident h, .oneMore (.seq (derives_mark hcomma) second) more⟩

theorem derives_of_parameters {ts names : List Token} (h : ReadsParameters ts names) :
    Derives (optional (rule .parameters)) ts := by
  cases h with
  | none => exact .absent
  | some h hlength =>
    obtain ⟨us, vs, rfl, first, more⟩ := derives_of_names h (maxArguments - 1) hlength
    exact .present (.rule (.seq first more))

theorem derives_of_variable {n n' : Nat} {ts : List Token} {t : Stmt} {keyword : Token}
    (hkeyword : keyword.kind = .keyword .varKw) (h : ReadsVariable n ts t n') :
    Derives (rule .varDecl) (keyword :: ts) := by
  refine .rule ?_
  cases h with
  | bare hname hsemicolon =>
    exact .seq (.seq (.seq (derives_word hkeyword) (derives_ident hname)) .absent)
      (derives_mark hsemicolon)
  | initialized hname hequal hvalue hsemicolon =>
    exact .seq (.seq (.seq (derives_word hkeyword) (derives_ident hname))
      (.present (.seq (derives_mark hequal) (derives_of_reads hvalue)))) (derives_mark hsemicolon)

theorem derives_of_initializer {n n' : Nat} {ts : List Token} {o : Option Stmt}
    (h : ReadsInitializer n ts o n') :
    Derives (rule .varDecl ||| rule .exprStmt ||| mark .semicolon) ts := by
  cases h with
  | none hsemicolon => exact .right (derives_mark hsemicolon)
  | varDecl hkeyword h => exact .left (.left (derives_of_variable hkeyword h))
  | expression h hsemicolon =>
    exact .left (.right (.rule (.seq (derives_of_reads h) (derives_mark hsemicolon))))

/-- A condition in parentheses behind its keyword. -/
theorem derives_condition {word : Keyword} {keyword opening closing : Token} {n n' : Nat}
    {ts : List Token} {e : Expr} (hkeyword : keyword.kind = .keyword word)
    (hopening : opening.kind = .symbol .leftParen) (h : ReadsExpr .whole n ts e n')
    (hclosing : closing.kind = .symbol .rightParen) :
    Derives (Phrase.word word ++ mark .leftParen ++ rule .expression ++ mark .rightParen)
      (keyword :: opening :: ts ++ [closing]) :=
  .seq (.seq (.seq (derives_word hkeyword) (derives_mark hopening)) (derives_of_reads h))
    (derives_mark hclosing)

mutual

/-- What spells a statement derives it. -/
theorem derives_of_statement {isOpen : Bool} {n n' : Nat} {ts : List Token} {t : Stmt} :
    ReadsStatement isOpen n ts t n' → Derives (rule .statement) ts
  | .expression h hsemicolon => by
    refine .rule (.left (.left (.left (.left (.left (.left (.rule ?_)))))))
    exact .seq (derives_of_reads h) (derives_mark hsemicolon)
  | .print hkeyword h hsemicolon => by
    refine .rule (.left (.left (.left (.right (.rule ?_)))))
    exact .seq (.seq (derives_word hkeyword) (derives_of_reads h)) (derives_mark hsemicolon)
  | .returns hkeyword h hsemicolon => by
    refine .rule (.left (.left (.right (.rule ?_))))
    exact .seq (.seq (derives_word hkeyword) (derives_optional h)) (derives_mark hsemicolon)
  | .block hopening hbody hclosing => by
    refine .rule (.right (.rule ?_))
    exact .seq (.seq (derives_mark hopening) (derives_of_declarations hbody))
      (derives_mark hclosing)
  | .ifThen hkeyword hopening hcondition hclosing hthen => by
    have branch := derives_of_statement hthen
    refine .rule (.left (.left (.left (.left (.right (.rule ?_))))))
    simpa [Rule.phrase] using Derives.seq
      (.seq (derives_condition hkeyword hopening hcondition hclosing) branch) .absent
  | .ifElse hkeyword hopening hcondition hclosing hthen helseKeyword helse => by
    have branch := derives_of_statement hthen
    have other := derives_of_statement helse
    refine .rule (.left (.left (.left (.left (.right (.rule ?_))))))
    simpa [Rule.phrase] using Derives.seq
      (.seq (derives_condition hkeyword hopening hcondition hclosing) branch)
      (.present (.seq (derives_word helseKeyword) other))
  | .whileLoop hkeyword hopening hcondition hclosing hbody => by
    have body := derives_of_statement hbody
    refine .rule (.left (.right (.rule ?_)))
    simpa [Rule.phrase] using Derives.seq (derives_condition hkeyword hopening hcondition hclosing) body
  | .forLoop hkeyword hopening hfirst hcondition hsemicolon hstep hclosing hbody => by
    have body := derives_of_statement hbody
    refine .rule (.left (.left (.left (.left (.left (.right (.rule ?_)))))))
    simpa [Rule.phrase] using Derives.seq (.seq (.seq (.seq (.seq (.seq (.seq (derives_word hkeyword)
      (derives_mark hopening)) (derives_of_initializer hfirst)) (derives_optional hcondition))
      (derives_mark hsemicolon)) (derives_optional hstep)) (derives_mark hclosing)) body

theorem derives_of_declaration {isOpen : Bool} {n n' : Nat} {ts : List Token} {t : Stmt} :
    ReadsDeclaration isOpen n ts t n' → Derives (rule .declaration) ts
  | .statement h => .rule (.right (derives_of_statement h))
  | .varDecl hkeyword h => .rule (.left (.right (derives_of_variable hkeyword h)))
  | .funDecl hkeyword h => by
    refine .rule (.left (.left (.right (.rule ?_))))
    exact .seq (derives_word hkeyword) (derives_of_routine h)
  | .classDecl hkeyword hname hopening hmethods hclosing => by
    have methods := derives_of_routines hmethods
    refine .rule (.left (.left (.left (.rule ?_))))
    exact .seq (.seq (.seq (.seq (derives_word hkeyword) (derives_ident hname))
      (derives_mark hopening)) methods) (derives_mark hclosing)

theorem derives_of_declarations {n n' : Nat} {ts : List Token} {body : List Stmt} :
    ReadsDeclarations n ts body n' → Derives (many (rule .declaration)) ts
  | .nil => .noneOf
  | .cons hfirst hmore => .oneOf (derives_of_declaration hfirst) (derives_of_declarations hmore)

theorem derives_of_routine {n n' : Nat} {ts : List Token} {f : FunctionDecl} :
    ReadsRoutine n ts f n' → Derives (rule .function) ts
  | .intro hname hopening hparams hclosing hleftBrace hbody hrightBrace => by
    have body : Derives (rule .block) _ := .rule (.seq (.seq (derives_mark hleftBrace)
      (derives_of_declarations hbody)) (derives_mark hrightBrace))
    refine .rule ?_
    simpa [Rule.phrase] using Derives.seq (.seq (.seq (.seq (derives_ident hname)
      (derives_mark hopening)) (derives_of_parameters hparams)) (derives_mark hclosing)) body

theorem derives_of_routines {n n' : Nat} {ts : List Token} {methods : List FunctionDecl} :
    ReadsRoutines n ts methods n' → Derives (many (rule .function)) ts
  | .nil => .noneOf
  | .cons hfirst hmore => .oneOf (derives_of_routine hfirst) (derives_of_routines hmore)

end

/-! ## Whole sources -/

theorem derives_program_iff {n : Nat} {ts : List Token} :
    Derives (rule .program) ts ↔ ∃ body n', ReadsDeclarations n ts body n' :=
  ⟨fun h => derives_spells meaning_closed h n, fun ⟨_, _, h⟩ => .rule (derives_of_declarations h)⟩

theorem derives_expression_iff {n : Nat} {ts : List Token} :
    Derives (rule .expression) ts ↔ ∃ e n', ReadsExpr .whole n ts e n' :=
  ⟨fun h => derives_spells meaning_closed h n, fun ⟨_, _, h⟩ => derives_of_reads h⟩

/-- Operands are read up to the first token that does not go on with them, whatever they spell. -/
theorem climb_unique {n n₁ n₂ : Nat} {ts us rest rest' : List Token} {e e' : Expr}
    (h : ReadsExpr (.climb tiers) n ts e n₁) (h' : ReadsExpr (.climb tiers) n us e' n₂)
    (hrest : Stops tiers rest) (hrest' : Stops tiers rest') (same : ts ++ rest = us ++ rest') :
    ts = us ∧ e = e' := by
  have all : ∀ bound, TakesBelow expression bound := fun _ _ _ _ _ h _ => expression_takes h
  have run := climb_takes (all _) tiers_apart h (Nat.le_refl _) hrest
    (s := ⟨ts ++ rest, .eof 1, n, []⟩) rfl rfl
  have run' := climb_takes (all _) tiers_apart h' (Nat.le_refl _) hrest'
    (s := ⟨ts ++ rest, .eof 1, n, []⟩) same rfl
  rw [run] at run'
  injection run' with he hstate
  injection hstate with hrests
  subst hrests
  exact ⟨List.append_cancel_right same, he⟩

/-- What stands before the equals sign of an assignment is a target. -/
theorem derives_target_of_reads {n n' : Nat} {left right : List Token} {equal : Token} {e : Expr}
    (hequal : equal.kind = .symbol .equal) (hleft : Derives (rule .logicOr) left)
    (h : ReadsExpr .whole n (left ++ equal :: right) e n') : Derives target left := by
  have stop : ∀ {token : Token} {more}, token.kind = .symbol .equal → Stops tiers (token :: more) := by
    rintro token more hkind _ ⟨⟩
    rw [hkind]
    decide
  have assigned : ∀ {ts us token n₁ assignee}, ReadsExpr (.climb tiers) n ts assignee n₁ →
      IsTarget assignee → token.kind = .symbol .equal → left ++ equal :: right = ts ++ token :: us →
      Derives target left := by
    intro ts us token n₁ assignee hreads assignable hkind same
    obtain ⟨e', n₂, hreads'⟩ := derives_spells meaning_closed hleft n
    obtain ⟨rfl, rfl⟩ := climb_unique hreads' hreads (stop hequal) (stop hkind) same
    exact (derives_of_reads hreads _ level_tiers).2 assignable
  generalize hts : left ++ equal :: right = ts at h assigned
  cases h with
  | loosest h =>
    obtain ⟨e', n₂, hreads'⟩ := derives_spells meaning_closed hleft n
    have nothing : Stops tiers [] := by rintro _ ⟨⟩
    obtain ⟨rfl, -⟩ := climb_unique hreads' h (stop hequal) nothing
      (hts.trans (List.append_nil ts).symm)
    simp at hts
  | assign htarget hkind _ => exact assigned htarget trivial hkind rfl
  | set htarget hkind _ => exact assigned htarget trivial hkind rfl

end Lox.Grammar

namespace Lox

open Grammar Grammar.Phrase

/-- The parser accepts exactly what derives from the documented grammar, where the tokens up to the
first end token count. In an assignment that it accepts, what stands before the equals sign is a
target and not just any operand. -/
theorem parse_ok_iff_derives (nextId : OccurrenceId) (tokens : List Token) :
    ((∃ body, (parseProgram nextId tokens).result = .ok body) ↔
      Derives (rule .program) (tokens.takeWhile (·.kind != .eof))) ∧
    ((∃ e, (parseExpression nextId tokens).result = .ok e) ↔
      Derives (rule .expression) (tokens.takeWhile (·.kind != .eof))) ∧
    ∀ left equal right, tokens.takeWhile (·.kind != .eof) = left ++ equal :: right →
      equal.kind = .symbol .equal → Derives (rule .logicOr) left →
      (∃ e, (parseExpression nextId tokens).result = .ok e) → Derives target left := by
  have program : ∀ {body}, (parseProgram nextId tokens).result = .ok body ↔
      ∃ n', ReadsDeclarations nextId (tokens.takeWhile (·.kind != .eof)) body n' := by
    intro body
    simp only [← parseProgram_eq_ok]
    cases parseProgram nextId tokens
    simp
  have expression : ∀ {e}, (parseExpression nextId tokens).result = .ok e ↔
      ∃ n', ReadsExpr .whole nextId (tokens.takeWhile (·.kind != .eof)) e n' := by
    intro e
    simp only [← parseExpression_eq_ok]
    cases parseExpression nextId tokens
    simp
  refine ⟨?_, ?_, ?_⟩
  · rw [derives_program_iff (n := nextId)]
    simp only [program]
  · rw [derives_expression_iff (n := nextId)]
    simp only [expression]
  · rintro left equal right hts hequal hleft ⟨e, he⟩
    obtain ⟨n', h⟩ := expression.mp he
    exact derives_target_of_reads hequal hleft (hts ▸ h)

theorem parse_ok_iff_derives_assignment :
    let a : Token := ⟨.identifier, "a", 1⟩
    let equal : Token := ⟨.symbol .equal, "=", 1⟩
    Derives (rule .expression) [a, equal, a] ∧ Derives target [a] := by
  intro a equal
  have parsed : ∃ e, (parseExpression 0 [a, equal, a]).result = .ok e := ⟨_, rfl⟩
  have operand : ReadsExpr (.climb Parser.tiers) 0 [a] (.var 0 a) 1 :=
    .operand (.operand (.operand (.operand (.operand (.operand
      (.prefixed (.applied (.primary (.var rfl)))))))))
  obtain ⟨-, expression, assigned⟩ := parse_ok_iff_derives 0 [a, equal, a]
  exact ⟨expression.mp parsed, assigned [a] equal [a] rfl rfl
    (derives_of_reads operand _ level_tiers).1 parsed⟩

end Lox
