import Lox.Proofs.Syntax.Reading

/-!
# A tree as tokens

A tree can be written as tokens again: the tokens that it keeps, and between them the words and marks
that its shape stands for. Parentheses are written where the tree has a node for them and nowhere else.

Tokens that spell a tree are the tokens that it is written as, up to lines and to the text of what is
no name (`content_of_reads`, `content_of_declarations`). Loops with `for` are an exception, since their
tree is the one of another loop.
-/

namespace Lox

/-! ## Writing trees -/

/-- A mark as it is written. -/
def Symbol.token (mark : Symbol) : Token := ⟨.symbol mark, mark.spelling, 1⟩

/-- A reserved word as it is written. -/
def Keyword.token (word : Keyword) : Token := ⟨.keyword word, word.spelling, 1⟩

/-- What a constant is as a token. -/
def Literal.kind : Literal → TokenKind
  | .number value => .number value
  | .string contents => .string contents
  | .boolean false => .keyword .falseKw
  | .boolean true => .keyword .trueKw
  | .nil => .keyword .nilKw

mutual

/-- The tokens of an expression. -/
def Expr.tokens : Expr → List Token
  | .literal value => [⟨value.kind, "", 1⟩]
  | .grouping inner => Symbol.leftParen.token :: inner.tokens ++ [Symbol.rightParen.token]
  | .unary operator operand => operator :: operand.tokens
  | .binary left operator right => left.tokens ++ operator :: right.tokens
  | .logical left operator right => left.tokens ++ operator :: right.tokens
  | .var _ name => [name]
  | .assign _ name value => name :: Symbol.equal.token :: value.tokens
  | .call callee paren arguments =>
    callee.tokens ++ Symbol.leftParen.token :: Expr.listTokens arguments ++ [paren]
  | .get object name => object.tokens ++ [Symbol.dot.token, name]
  | .set object name value =>
    object.tokens ++ Symbol.dot.token :: name :: Symbol.equal.token :: value.tokens
  | .this _ keyword => [keyword]

/-- The tokens of expressions with commas between them. -/
def Expr.listTokens : List Expr → List Token
  | [] => []
  | first :: more => first.tokens ++ Expr.furtherTokens more

/-- The tokens of expressions with commas before them. -/
def Expr.furtherTokens : List Expr → List Token
  | [] => []
  | first :: more => Symbol.comma.token :: first.tokens ++ Expr.furtherTokens more

end

/-- The tokens of a condition with the word in front of it. -/
def Keyword.conditionTokens (word : Keyword) (condition : Expr) : List Token :=
  word.token :: Symbol.leftParen.token :: condition.tokens ++ [Symbol.rightParen.token]

mutual

/-- The tokens of a statement. -/
def Stmt.tokens : Stmt → List Token
  | .expression value => value.tokens ++ [Symbol.semicolon.token]
  | .print value => Keyword.printKw.token :: value.tokens ++ [Symbol.semicolon.token]
  | .varDecl name none => [Keyword.varKw.token, name, Symbol.semicolon.token]
  | .varDecl name (some value) =>
    Keyword.varKw.token :: name :: Symbol.equal.token :: value.tokens ++ [Symbol.semicolon.token]
  | .block statements =>
    Symbol.leftBrace.token :: Stmt.listTokens statements ++ [Symbol.rightBrace.token]
  | .ifThen condition thenBranch => Keyword.ifKw.conditionTokens condition ++ thenBranch.tokens
  | .ifElse condition thenBranch elseBranch =>
    Keyword.ifKw.conditionTokens condition ++ thenBranch.tokens ++
      Keyword.elseKw.token :: elseBranch.tokens
  | .whileLoop condition body => Keyword.whileKw.conditionTokens condition ++ body.tokens
  | .funDecl declaration => Keyword.funKw.token :: declaration.tokens
  | .returns keyword none => [keyword, Symbol.semicolon.token]
  | .returns keyword (some value) => keyword :: value.tokens ++ [Symbol.semicolon.token]
  | .classDecl name methods =>
    Keyword.classKw.token :: name :: Symbol.leftBrace.token :: FunctionDecl.listTokens methods ++
      [Symbol.rightBrace.token]

/-- The tokens of a function from its name on. -/
def FunctionDecl.tokens : FunctionDecl → List Token
  | ⟨name, params, body⟩ =>
    name :: Symbol.leftParen.token :: params.intersperse Symbol.comma.token ++
      Symbol.rightParen.token :: Symbol.leftBrace.token :: Stmt.listTokens body ++
      [Symbol.rightBrace.token]

/-- The tokens of statements, one behind the other. -/
def Stmt.listTokens : List Stmt → List Token
  | [] => []
  | first :: more => first.tokens ++ Stmt.listTokens more

/-- The tokens of functions, one behind the other. -/
def FunctionDecl.listTokens : List FunctionDecl → List Token
  | [] => []
  | first :: more => first.tokens ++ FunctionDecl.listTokens more

end

/-! ## What counts of a token -/

/-- What a token is, and which name it is if it is one. The value of a constant is part of what it
is. -/
def Token.content (token : Token) : TokenKind × String :=
  (token.kind, if token.kind = .identifier then token.lexeme else "")

/-- What counts of tokens. -/
def contents (tokens : List Token) : List (TokenKind × String) := tokens.map Token.content

@[simp] theorem contents_nil : contents [] = [] := rfl

@[simp] theorem contents_cons (token : Token) (tokens : List Token) :
    contents (token :: tokens) = token.content :: contents tokens := rfl

@[simp] theorem contents_append (ts us : List Token) :
    contents (ts ++ us) = contents ts ++ contents us := List.map_append

/-- Of what is no name, only the kind counts. -/
theorem content_eq {token other : Token} (h : token.kind = other.kind)
    (hname : token.kind ≠ .identifier) : token.content = other.content := by
  unfold Token.content
  rw [← h, if_neg hname, if_neg hname]

theorem content_symbol {token : Token} {mark : Symbol} (h : token.kind = .symbol mark) :
    token.content = mark.token.content :=
  content_eq h (by rw [h]; exact TokenKind.noConfusion)

theorem content_keyword {token : Token} {word : Keyword} (h : token.kind = .keyword word) :
    token.content = word.token.content :=
  content_eq h (by rw [h]; exact TokenKind.noConfusion)

theorem content_literal {token : Token} {value : Literal} (h : token.kind.literal? = some value) :
    token.content = Token.content ⟨value.kind, "", 1⟩ := by
  refine content_eq ?_ (by rintro hkind; rw [hkind] at h; cases h)
  unfold TokenKind.literal? at h
  split at h <;> cases h <;> assumption

/-! ## Expressions -/

/-- The trees of a tier are written with the operator between the operands. -/
def Parser.Tier.WritesBetween (tier : Parser.Tier) : Prop :=
  ∀ left operator right,
    (tier.node left operator right).tokens = left.tokens ++ operator :: right.tokens

theorem tiers_writeBetween : ∀ tier ∈ Parser.tiers, tier.WritesBetween := by
  simp only [Parser.tiers, List.forall_mem_cons]
  refine ⟨?_, ?_, ?_, ?_, ?_, ?_, fun _ h => absurd h List.not_mem_nil⟩ <;>
    exact fun _ _ _ => rfl

/-- The expression is written with what counts of the tokens, if its operators are. -/
def WrittenAs : ExprRule → Expr → List Token → Prop
  | .climb tiers, e, ts => (∀ tier ∈ tiers, tier.WritesBetween) → contents e.tokens = contents ts
  | _, e, ts => contents e.tokens = contents ts

mutual

/-- What counts of tokens that spell an expression is what it is written with. -/
theorem content_of_reads {name : ExprRule} {n n' : Nat} {ts : List Token} {e : Expr} :
    ReadsExpr name n ts e n' → WrittenAs name e ts
  | .literal h => by simp [WrittenAs, Expr.tokens, content_literal h]
  | .this _ | .var _ => rfl
  | .grouping hopening hinner hclosing => by
    have inner : contents _ = contents _ := content_of_reads hinner
    simp [WrittenAs, Expr.tokens, inner, content_symbol hopening, content_symbol hclosing]
  | .primary h => by
    have operand := content_of_reads h
    exact operand
  | .call hcallee hopening harguments hclosing => by
    have callee : contents _ = contents _ := content_of_reads hcallee
    have arguments := content_of_arguments harguments
    simp [WrittenAs, Expr.tokens, callee, arguments, content_symbol hopening]
  | .get hobject hdot hname => by
    have object : contents _ = contents _ := content_of_reads hobject
    simp [WrittenAs, Expr.tokens, object, content_symbol hdot]
  | .applied h => by
    have operand := content_of_reads h
    exact operand
  | .unary _ h => by
    have operand : contents _ = contents _ := content_of_reads h
    simp [WrittenAs, Expr.tokens, operand]
  | .prefixed h => fun _ => by
    have operand := content_of_reads h
    exact operand
  | .operand h => fun between => by
    have operand := content_of_reads h
    exact operand (List.forall_mem_cons.mp between).2
  | .operator hleft _ hright => fun between => by
    have left := content_of_reads hleft between
    have right := content_of_reads hright (List.forall_mem_cons.mp between).2
    rw [(List.forall_mem_cons.mp between).1]
    simp [left, right]
  | .loosest h => by
    have operand := content_of_reads h tiers_writeBetween
    exact operand
  | .assign htarget hequal hvalue => by
    have target := content_of_reads htarget tiers_writeBetween
    have value : contents _ = contents _ := content_of_reads hvalue
    simp only [Expr.tokens] at target
    simp [WrittenAs, Expr.tokens, ← target, value, content_symbol hequal]
  | .set htarget hequal hvalue => by
    have target := content_of_reads htarget tiers_writeBetween
    have value : contents _ = contents _ := content_of_reads hvalue
    simp only [Expr.tokens] at target
    simp [WrittenAs, Expr.tokens, ← target, value, content_symbol hequal]

theorem content_of_arguments {n n' : Nat} {ts : List Token} {es : List Expr} :
    ReadsArguments n ts es n' → contents (Expr.listTokens es) = contents ts
  | .none => rfl
  | .some h _ => by
    have items := content_of_items h
    exact items

theorem content_of_items {n n' : Nat} {ts : List Token} {es : List Expr} :
    ReadsItems n ts es n' → contents (Expr.listTokens es) = contents ts
  | .last h => by
    have item : contents _ = contents _ := content_of_reads h
    simp [Expr.listTokens, Expr.furtherTokens, item]
  | .more h hcomma hmore => by
    have item : contents _ = contents _ := content_of_reads h
    have more := content_of_items hmore
    cases hmore <;>
      simp_all [Expr.listTokens, Expr.furtherTokens, content_symbol hcomma]

end

/-! ## Statements and declarations -/

/-- No loop is written with `for`. -/
def NoFor (ts : List Token) : Prop := ∀ token ∈ ts, token.kind ≠ .keyword .forKw

theorem content_of_names {ts names : List Token} :
    ReadsNames ts names → contents (names.intersperse Symbol.comma.token) = contents ts
  | .last _ => rfl
  | .more _ hcomma hmore => by
    have more := content_of_names hmore
    cases hmore <;> simp_all [content_symbol hcomma]

theorem content_of_parameters {ts names : List Token} (h : ReadsParameters ts names) :
    contents (names.intersperse Symbol.comma.token) = contents ts := by
  cases h with
  | none => rfl
  | some h _ => exact content_of_names h

theorem content_of_variable {n n' : Nat} {keyword : Token} {ts : List Token} {t : Stmt}
    (hkeyword : keyword.kind = .keyword .varKw) (h : ReadsVariable n ts t n') :
    contents t.tokens = contents (keyword :: ts) := by
  cases h with
  | bare _ hsemicolon =>
    simp [Stmt.tokens, content_keyword hkeyword, content_symbol hsemicolon]
  | initialized _ hequal hvalue hsemicolon =>
    have value : contents _ = contents _ := content_of_reads hvalue
    simp [Stmt.tokens, value, content_keyword hkeyword, content_symbol hequal,
      content_symbol hsemicolon]

/-- A condition in parentheses behind its keyword. -/
theorem content_of_condition {word : Keyword} {keyword opening closing : Token} {n n' : Nat}
    {ts : List Token} {e : Expr} (hkeyword : keyword.kind = .keyword word)
    (hopening : opening.kind = .symbol .leftParen) (h : ReadsExpr .whole n ts e n')
    (hclosing : closing.kind = .symbol .rightParen) :
    contents (word.conditionTokens e) = contents (keyword :: opening :: ts ++ [closing]) := by
  have condition : contents _ = contents _ := content_of_reads h
  simp [Keyword.conditionTokens, condition, content_keyword hkeyword, content_symbol hopening,
    content_symbol hclosing]

mutual

/-- What counts of tokens that spell a statement is what it is written with. -/
theorem content_of_statement {isOpen : Bool} {n n' : Nat} {ts : List Token} {t : Stmt} :
    ReadsStatement isOpen n ts t n' → NoFor ts → contents t.tokens = contents ts
  | .expression h hsemicolon, _ => by
    have value : contents _ = contents _ := content_of_reads h
    simp [Stmt.tokens, value, content_symbol hsemicolon]
  | .print hkeyword h hsemicolon, _ => by
    have value : contents _ = contents _ := content_of_reads h
    simp [Stmt.tokens, value, content_keyword hkeyword, content_symbol hsemicolon]
  | .returns _ h hsemicolon, _ => by
    cases h with
    | none => simp [Stmt.tokens, content_symbol hsemicolon]
    | some h =>
      have value : contents _ = contents _ := content_of_reads h
      simp [Stmt.tokens, value, content_symbol hsemicolon]
  | .block hopening hbody hclosing, hfor => by
    simp only [NoFor, List.cons_append, List.forall_mem_cons, List.forall_mem_append] at hfor
    have body := content_of_declarations hbody hfor.2.1
    simp [Stmt.tokens, body, content_symbol hopening, content_symbol hclosing]
  | .ifThen hkeyword hopening hcondition hclosing hthen, hfor => by
    simp only [NoFor, List.cons_append, List.forall_mem_cons, List.forall_mem_append] at hfor
    have branch := content_of_statement hthen hfor.2.2.2.2
    simp [Stmt.tokens, content_of_condition hkeyword hopening hcondition hclosing, branch]
  | .ifElse hkeyword hopening hcondition hclosing hthen helseKeyword helse, hfor => by
    simp only [NoFor, List.cons_append, List.append_assoc, List.forall_mem_cons,
      List.forall_mem_append] at hfor
    have branch := content_of_statement hthen hfor.2.2.2.2.1
    have other := content_of_statement helse hfor.2.2.2.2.2.2
    simp [Stmt.tokens, content_of_condition hkeyword hopening hcondition hclosing, branch, other,
      content_keyword helseKeyword]
  | .whileLoop hkeyword hopening hcondition hclosing hbody, hfor => by
    simp only [NoFor, List.cons_append, List.forall_mem_cons, List.forall_mem_append] at hfor
    have body := content_of_statement hbody hfor.2.2.2.2
    simp [Stmt.tokens, content_of_condition hkeyword hopening hcondition hclosing, body]
  | .forLoop hkeyword .., hfor => absurd hkeyword (hfor _ List.mem_cons_self)

theorem content_of_declaration {isOpen : Bool} {n n' : Nat} {ts : List Token} {t : Stmt} :
    ReadsDeclaration isOpen n ts t n' → NoFor ts → contents t.tokens = contents ts
  | .statement h, hfor => content_of_statement h hfor
  | .varDecl hkeyword h, _ => content_of_variable hkeyword h
  | .funDecl hkeyword h, hfor => by
    have routine := content_of_routine h (List.forall_mem_cons.mp hfor).2
    simp [Stmt.tokens, routine, content_keyword hkeyword]
  | .classDecl hkeyword _ hopening hmethods hclosing, hfor => by
    simp only [NoFor, List.cons_append, List.forall_mem_cons, List.forall_mem_append] at hfor
    have methods := content_of_routines hmethods hfor.2.2.2.1
    simp [Stmt.tokens, methods, content_keyword hkeyword, content_symbol hopening,
      content_symbol hclosing]

theorem content_of_declarations {n n' : Nat} {ts : List Token} {body : List Stmt} :
    ReadsDeclarations n ts body n' → NoFor ts → contents (Stmt.listTokens body) = contents ts
  | .nil, _ => rfl
  | .cons hfirst hmore, hfor => by
    have hfor := List.forall_mem_append.mp hfor
    have first := content_of_declaration hfirst hfor.1
    have more := content_of_declarations hmore hfor.2
    simp [Stmt.listTokens, first, more]

theorem content_of_routine {n n' : Nat} {ts : List Token} {f : FunctionDecl} :
    ReadsRoutine n ts f n' → NoFor ts → contents f.tokens = contents ts
  | .intro _ hopening hparams hclosing hleftBrace hbody hrightBrace, hfor => by
    simp only [NoFor, List.cons_append, List.append_assoc, List.forall_mem_cons,
      List.forall_mem_append] at hfor
    have params := content_of_parameters hparams
    have body := content_of_declarations hbody hfor.2.2.2.2.2.1
    simp [FunctionDecl.tokens, params, body, content_symbol hopening, content_symbol hclosing,
      content_symbol hleftBrace, content_symbol hrightBrace]

theorem content_of_routines {n n' : Nat} {ts : List Token} {methods : List FunctionDecl} :
    ReadsRoutines n ts methods n' → NoFor ts →
      contents (FunctionDecl.listTokens methods) = contents ts
  | .nil, _ => rfl
  | .cons hfirst hmore, hfor => by
    have hfor := List.forall_mem_append.mp hfor
    have first := content_of_routine hfirst hfor.1
    have more := content_of_routines hmore hfor.2
    simp [FunctionDecl.listTokens, first, more]

end

end Lox
