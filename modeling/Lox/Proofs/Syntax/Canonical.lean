import Lox.Proofs.Syntax.Acceptance
import Lox.Proofs.Syntax.Flattening

/-!
# Trees that come back

Writing a tree leaves its shape to the precedence of operators and to the rule for `else`. A tree whose
shape agrees with them is `Canonical`: its operands hold together at least as tightly as their place
asks for, and no branch in front of an `else` could take the word for itself. The tokens of such a tree
are parsed as the tree again, with new identities for its occurrences.

Conversely, what is parsed is written with what counts of its tokens. Together, `tokens_faithful`.
-/

namespace Lox

open Lox.Parser

/-! ## Trees without identities -/

mutual

/-- The expression with the same identity for all its occurrences. -/
def Expr.erase : Expr → Expr
  | .literal value => .literal value
  | .grouping inner => .grouping inner.erase
  | .unary operator operand => .unary operator operand.erase
  | .binary left operator right => .binary left.erase operator right.erase
  | .logical left operator right => .logical left.erase operator right.erase
  | .var _ name => .var 0 name
  | .assign _ name value => .assign 0 name value.erase
  | .call callee paren arguments => .call callee.erase paren (Expr.eraseAll arguments)
  | .get object name => .get object.erase name
  | .set object name value => .set object.erase name value.erase
  | .this _ keyword => .this 0 keyword

/-- The expressions with the same identity for all their occurrences. -/
def Expr.eraseAll : List Expr → List Expr
  | [] => []
  | first :: more => first.erase :: Expr.eraseAll more

end

mutual

/-- The statement with the same identity for all its occurrences. -/
def Stmt.erase : Stmt → Stmt
  | .expression value => .expression value.erase
  | .print value => .print value.erase
  | .varDecl name none => .varDecl name none
  | .varDecl name (some value) => .varDecl name (some value.erase)
  | .block statements => .block (Stmt.eraseAll statements)
  | .ifThen condition thenBranch => .ifThen condition.erase thenBranch.erase
  | .ifElse condition thenBranch elseBranch =>
    .ifElse condition.erase thenBranch.erase elseBranch.erase
  | .whileLoop condition body => .whileLoop condition.erase body.erase
  | .funDecl declaration => .funDecl declaration.erase
  | .returns keyword none => .returns keyword none
  | .returns keyword (some value) => .returns keyword (some value.erase)
  | .classDecl name methods => .classDecl name (FunctionDecl.eraseAll methods)

/-- The function with the same identity for all its occurrences. -/
def FunctionDecl.erase : FunctionDecl → FunctionDecl
  | ⟨name, params, body⟩ => ⟨name, params, Stmt.eraseAll body⟩

/-- The statements with the same identity for all their occurrences. -/
def Stmt.eraseAll : List Stmt → List Stmt
  | [] => []
  | first :: more => first.erase :: Stmt.eraseAll more

/-- The functions with the same identity for all their occurrences. -/
def FunctionDecl.eraseAll : List FunctionDecl → List FunctionDecl
  | [] => []
  | first :: more => first.erase :: FunctionDecl.eraseAll more

end

/-! ## Precedence -/

/-- The level of an operator that may not evaluate its right operand. -/
def TokenKind.logicalLevel? : TokenKind → Option Nat
  | .keyword .orKw => some 1
  | .keyword .andKw => some 2
  | _ => none

/-- The level of an operator that evaluates both operands. -/
def TokenKind.binaryLevel? : TokenKind → Option Nat
  | .symbol .bangEqual | .symbol .equalEqual => some 3
  | .symbol .greater | .symbol .greaterEqual | .symbol .less | .symbol .lessEqual => some 4
  | .symbol .minus | .symbol .plus => some 5
  | .symbol .slash | .symbol .star => some 6
  | _ => none

/-- How tightly an expression holds together: assignments at 0, operators from 1 to 6, prefixed
operators at 7, calls and properties at 8 and what is one operand anyway at 9. -/
def Expr.level : Expr → Nat
  | .assign .. | .set .. => 0
  | .logical _ operator _ => operator.kind.logicalLevel?.getD 0
  | .binary _ operator _ => operator.kind.binaryLevel?.getD 0
  | .unary .. => 7
  | .call .. | .get .. => 8
  | .literal _ | .grouping _ | .var .. | .this .. => 9

mutual

/-- Holds if operands respect the precedence of the operators, there are not too many arguments, and
each token is of the kind that its place asks for. -/
def Expr.Canonical : Expr → Prop
  | .literal _ => True
  | .grouping inner => inner.Canonical
  | .unary operator operand =>
    isPrefixOperator operator = true ∧ 7 ≤ operand.level ∧ operand.Canonical
  | .binary left operator right => ∃ level, operator.kind.binaryLevel? = some level ∧
      level ≤ left.level ∧ level < right.level ∧ left.Canonical ∧ right.Canonical
  | .logical left operator right => ∃ level, operator.kind.logicalLevel? = some level ∧
      level ≤ left.level ∧ level < right.level ∧ left.Canonical ∧ right.Canonical
  | .var _ name => name.kind = .identifier
  | .assign _ name value => name.kind = .identifier ∧ value.Canonical
  | .call callee paren arguments => 8 ≤ callee.level ∧ callee.Canonical ∧
      paren.kind = .symbol .rightParen ∧ arguments.length ≤ maxArguments ∧
      Expr.AllCanonical arguments
  | .get object name => 8 ≤ object.level ∧ object.Canonical ∧ name.kind = .identifier
  | .set object name value => 8 ≤ object.level ∧ object.Canonical ∧ name.kind = .identifier ∧
      value.Canonical
  | .this _ keyword => keyword.kind = .keyword .thisKw

/-- Holds if all expressions are canonical. -/
def Expr.AllCanonical : List Expr → Prop
  | [] => True
  | first :: more => first.Canonical ∧ Expr.AllCanonical more

end

/-- Holds of declarations that are statements. -/
def Stmt.isStatement : Stmt → Bool
  | .varDecl .. | .funDecl _ | .classDecl .. => false
  | _ => true

/-- Holds if the statement ends in a condition without `else`. -/
def Stmt.endsOpen : Stmt → Bool
  | .ifThen .. => true
  | .ifElse _ _ elseBranch => elseBranch.endsOpen
  | .whileLoop _ body => body.endsOpen
  | _ => false

mutual

/-- Holds if expressions respect precedence, branches and bodies are statements, and no branch before
an `else` ends in a condition without one. -/
def Stmt.Canonical : Stmt → Prop
  | .expression value => value.Canonical
  | .print value => value.Canonical
  | .varDecl name none => name.kind = .identifier
  | .varDecl name (some value) => name.kind = .identifier ∧ value.Canonical
  | .block statements => Stmt.AllCanonical statements
  | .ifThen condition thenBranch =>
    condition.Canonical ∧ thenBranch.isStatement = true ∧ thenBranch.Canonical
  | .ifElse condition thenBranch elseBranch =>
    condition.Canonical ∧ thenBranch.isStatement = true ∧ thenBranch.Canonical ∧
      thenBranch.endsOpen = false ∧ elseBranch.isStatement = true ∧ elseBranch.Canonical
  | .whileLoop condition body =>
    condition.Canonical ∧ body.isStatement = true ∧ body.Canonical
  | .funDecl declaration => declaration.Canonical
  | .returns keyword none => keyword.kind = .keyword .returnKw
  | .returns keyword (some value) => keyword.kind = .keyword .returnKw ∧ value.Canonical
  | .classDecl name methods => name.kind = .identifier ∧ FunctionDecl.AllCanonical methods

/-- Holds if there are not too many parameters and the body is canonical. -/
def FunctionDecl.Canonical : FunctionDecl → Prop
  | ⟨name, params, body⟩ => name.kind = .identifier ∧ (∀ param ∈ params, param.kind = .identifier) ∧
      params.length ≤ maxArguments ∧ Stmt.AllCanonical body

/-- Holds if all statements are canonical. -/
def Stmt.AllCanonical : List Stmt → Prop
  | [] => True
  | first :: more => first.Canonical ∧ Stmt.AllCanonical more

/-- Holds if all functions are canonical. -/
def FunctionDecl.AllCanonical : List FunctionDecl → Prop
  | [] => True
  | first :: more => first.Canonical ∧ FunctionDecl.AllCanonical more

end

/-! ## Reading expressions back -/

/-- The rule for expressions of a level and tighter ones. -/
def ruleAt : Nat → ExprRule
  | 0 => .whole
  | 1 => .climb tiers
  | 2 => .climb (tiers.drop 1)
  | 3 => .climb (tiers.drop 2)
  | 4 => .climb (tiers.drop 3)
  | 5 => .climb (tiers.drop 4)
  | 6 => .climb (tiers.drop 5)
  | 7 => .prefixed
  | 8 => .applied
  | _ => .primary

theorem reads_looser {n n' : Nat} {ts : List Token} {e : Expr} {level : Nat} :
    ReadsExpr (ruleAt (level + 1)) n ts e n' → ReadsExpr (ruleAt level) n ts e n' := by
  intro h
  match level with
  | 0 => exact .loosest h
  | 1 | 2 | 3 | 4 | 5 => exact .operand h
  | 6 => exact .operand (.prefixed h)
  | 7 => exact .applied h
  | 8 => exact .primary h
  | _ + 9 => exact h

/-- What holds together more tightly can stand where less is asked for. -/
theorem reads_at {n n' : Nat} {ts : List Token} {e : Expr} {level tighter : Nat}
    (hle : level ≤ tighter) (h : ReadsExpr (ruleAt tighter) n ts e n') :
    ReadsExpr (ruleAt level) n ts e n' := by
  induction hle with
  | refl => exact h
  | step _ ih => exact ih (reads_looser h)

section
variable {n n₁ n₂ level : Nat} {ts us : List Token} {left right : Expr} {operator : Token}

theorem reads_binary (hlevel : operator.kind.binaryLevel? = some level)
    (hleft : ReadsExpr (ruleAt level) n ts left n₁)
    (hright : ReadsExpr (ruleAt (level + 1)) n₁ us right n₂) :
    ReadsExpr (ruleAt level) n (ts ++ operator :: us) (.binary left operator right) n₂ := by
  unfold TokenKind.binaryLevel? at hlevel
  split at hlevel <;> cases hlevel <;> next hkind => first
    | exact .operator hleft (by rw [hkind]; decide) hright
    | exact .operator hleft (by rw [hkind]; decide) (.prefixed hright)

theorem reads_logical (hlevel : operator.kind.logicalLevel? = some level)
    (hleft : ReadsExpr (ruleAt level) n ts left n₁)
    (hright : ReadsExpr (ruleAt (level + 1)) n₁ us right n₂) :
    ReadsExpr (ruleAt level) n (ts ++ operator :: us) (.logical left operator right) n₂ := by
  unfold TokenKind.logicalLevel? at hlevel
  split at hlevel <;> cases hlevel <;> next hkind =>
    exact .operator hleft (by rw [hkind]; decide) hright

end

theorem literal?_kind (value : Literal) : value.kind.literal? = some value := by
  match value with
  | .number _ | .string _ | .boolean true | .boolean false | .nil => rfl

/-- An expression is read back from its tokens, at its own level. -/
def Expr.ReadBack (e : Expr) : Prop :=
  ∀ n, ∃ e' n', ReadsExpr (ruleAt e.level) n e.tokens e' n' ∧ e'.erase = e.erase

theorem Expr.ReadBack.at {e : Expr} (h : e.ReadBack) {level : Nat} (hle : level ≤ e.level)
    (n : Nat) : ∃ e' n', ReadsExpr (ruleAt level) n e.tokens e' n' ∧ e'.erase = e.erase := by
  obtain ⟨e', n', h, same⟩ := h n
  exact ⟨e', n', reads_at hle h, same⟩

mutual

/-- A canonical expression is read back from its tokens. -/
theorem readBack_of_canonical : (e : Expr) → e.Canonical → e.ReadBack
  | .literal value, _ => fun n => ⟨_, n, .literal (literal?_kind value), rfl⟩
  | .grouping inner, h => fun n => by
    obtain ⟨inner', n', hinner, same⟩ := (readBack_of_canonical inner h).at (Nat.zero_le _) n
    exact ⟨_, n', .grouping rfl hinner rfl, by simp only [Expr.erase, same]⟩
  | .unary operator operand, ⟨hoperator, hlevel, h⟩ => fun n => by
    obtain ⟨operand', n', hoperand, same⟩ := (readBack_of_canonical operand h).at hlevel n
    exact ⟨_, n', .unary hoperator hoperand, by simp only [Expr.erase, same]⟩
  | .binary left operator right, ⟨level, hlevel, hleft, hright, h, h'⟩ => fun n => by
    obtain ⟨left', n₁, hleft, same⟩ := (readBack_of_canonical left h).at hleft n
    obtain ⟨right', n₂, hright, same'⟩ := (readBack_of_canonical right h').at hright n₁
    have own : (Expr.binary left operator right).level = level := by
      rw [Expr.level, hlevel, Option.getD_some]
    exact ⟨_, n₂, own ▸ reads_binary hlevel hleft hright, by simp only [Expr.erase, same, same']⟩
  | .logical left operator right, ⟨level, hlevel, hleft, hright, h, h'⟩ => fun n => by
    obtain ⟨left', n₁, hleft, same⟩ := (readBack_of_canonical left h).at hleft n
    obtain ⟨right', n₂, hright, same'⟩ := (readBack_of_canonical right h').at hright n₁
    have own : (Expr.logical left operator right).level = level := by
      rw [Expr.level, hlevel, Option.getD_some]
    exact ⟨_, n₂, own ▸ reads_logical hlevel hleft hright, by simp only [Expr.erase, same, same']⟩
  | .var _ _, hname => fun n => ⟨_, n + 1, .var hname, rfl⟩
  | .assign _ name value, ⟨hname, h⟩ => fun n => by
    obtain ⟨value', n', hvalue, same⟩ :=
      (readBack_of_canonical value h).at (Nat.zero_le _) (n + 1)
    have operand : ReadsExpr (ruleAt 9) n [name] (.var n name) (n + 1) := .var hname
    have target : ReadsExpr (ruleAt 1) n [name] (.var n name) (n + 1) :=
      reads_at (by decide) operand
    exact ⟨_, n' + 1, .assign target rfl hvalue, by simp only [Expr.erase, same]⟩
  | .call callee paren arguments, ⟨hlevel, h, hparen, hlength, harguments⟩ => fun n => by
    obtain ⟨callee', n₁, hcallee, same⟩ := (readBack_of_canonical callee h).at hlevel n
    have items := readBack_of_allCanonical arguments harguments
    cases arguments with
    | nil => exact ⟨_, n₁, .call hcallee rfl .none hparen, by simp only [Expr.erase, same]⟩
    | cons first more =>
      obtain ⟨arguments', n₂, hitems, same', hlength'⟩ := items (List.cons_ne_nil _ _) n₁
      exact ⟨_, n₂, .call hcallee rfl (.some hitems (hlength' ▸ hlength)) hparen,
        by simp only [Expr.erase, same, same']⟩
  | .get object name, ⟨hlevel, h, hname⟩ => fun n => by
    obtain ⟨object', n', hobject, same⟩ := (readBack_of_canonical object h).at hlevel n
    exact ⟨_, n', .get hobject rfl hname, by simp only [Expr.erase, same]⟩
  | .set object name value, ⟨hlevel, h, hname, h'⟩ => fun n => by
    obtain ⟨object', n₁, hobject, same⟩ := (readBack_of_canonical object h).at hlevel n
    obtain ⟨value', n₂, hvalue, same'⟩ := (readBack_of_canonical value h').at (Nat.zero_le _) n₁
    have operand : ReadsExpr (ruleAt 8) n (object.tokens ++ [Symbol.dot.token, name])
      (.get object' name) n₁ := .get hobject rfl hname
    have target : ReadsExpr (ruleAt 1) n (object.tokens ++ [Symbol.dot.token, name])
      (.get object' name) n₁ := reads_at (by decide) operand
    have assigned : ReadsExpr .whole n
      (object.tokens ++ [Symbol.dot.token, name] ++ Symbol.equal.token :: value.tokens)
      (.set object' name value') n₂ := .set target rfl hvalue
    rw [List.append_assoc] at assigned
    exact ⟨_, n₂, assigned, by simp only [Expr.erase, same, same']⟩
  | .this _ _, hkeyword => fun n => ⟨_, n + 1, .this hkeyword, rfl⟩

theorem readBack_of_allCanonical : (es : List Expr) → Expr.AllCanonical es → es ≠ [] →
    ∀ n, ∃ es' n', ReadsItems n (Expr.listTokens es) es' n' ∧
      Expr.eraseAll es' = Expr.eraseAll es ∧ es'.length = es.length
  | [], _, h => absurd rfl h
  | first :: more, ⟨hfirst, hmore⟩, _ => fun n => by
    obtain ⟨first', n₁, hfirst, same⟩ :=
      (readBack_of_canonical first hfirst).at (Nat.zero_le _) n
    have further := readBack_of_allCanonical more hmore
    cases more with
    | nil =>
      refine ⟨[first'], n₁, ?_, by simp only [Expr.eraseAll, same], rfl⟩
      simpa [Expr.listTokens, Expr.furtherTokens] using ReadsItems.last hfirst
    | cons second more =>
      obtain ⟨more', n₂, hmore, same', hlength⟩ := further (List.cons_ne_nil _ _) n₁
      exact ⟨first' :: more', n₂, .more hfirst rfl hmore, by rw [Expr.eraseAll, same, same']; rfl,
        by rw [List.length_cons, List.length_cons, hlength]⟩

end

/-- A canonical expression where any expression can stand. -/
theorem Expr.Canonical.reads {e : Expr} (h : e.Canonical) (n : Nat) :
    ∃ e' n', ReadsExpr .whole n e.tokens e' n' ∧ e'.erase = e.erase :=
  (readBack_of_canonical e h).at (Nat.zero_le _) n

/-! ## Reading statements back -/

theorem readsNames_intersperse {names : List Token} (h : ∀ name ∈ names, name.kind = .identifier)
    (hne : names ≠ []) : ReadsNames (names.intersperse Symbol.comma.token) names := by
  induction names with
  | nil => exact absurd rfl hne
  | cons name names ih =>
    obtain ⟨hname, hnames⟩ := List.forall_mem_cons.mp h
    cases names with
    | nil => exact .last hname
    | cons other names => exact .more hname rfl (ih hnames (List.cons_ne_nil _ _))

theorem readsParameters_intersperse {params : List Token}
    (h : ∀ param ∈ params, param.kind = .identifier) (hlength : params.length ≤ maxArguments) :
    ReadsParameters (params.intersperse Symbol.comma.token) params := by
  cases params with
  | nil => exact .none
  | cons first more => exact .some (readsNames_intersperse h (List.cons_ne_nil _ _)) hlength

theorem conditionTokens_append (word : Keyword) (condition : Expr) (us : List Token) :
    word.conditionTokens condition ++ us =
      word.token :: Symbol.leftParen.token :: condition.tokens ++ Symbol.rightParen.token :: us := by
  simp [Keyword.conditionTokens]

/-- A declaration is read back from its tokens, as a statement if it is one. -/
def Stmt.ReadBack (t : Stmt) : Prop :=
  ∀ n, ∃ t' n', ReadsDeclaration t.endsOpen n t.tokens t' n' ∧
    (t.isStatement = true → ReadsStatement t.endsOpen n t.tokens t' n') ∧ t'.erase = t.erase

/-- A statement that is read back is so as a declaration too. -/
theorem readBack_of_statement {t : Stmt}
    (h : ∀ n, ∃ t' n', ReadsStatement t.endsOpen n t.tokens t' n' ∧ t'.erase = t.erase) :
    t.ReadBack := fun n =>
  let ⟨t', n', hreads, same⟩ := h n
  ⟨t', n', .statement hreads, fun _ => hreads, same⟩

theorem Stmt.ReadBack.statement {t : Stmt} (h : t.ReadBack) (hstatement : t.isStatement = true)
    (n : Nat) : ∃ t' n', ReadsStatement t.endsOpen n t.tokens t' n' ∧ t'.erase = t.erase :=
  let ⟨t', n', _, hreads, same⟩ := h n
  ⟨t', n', hreads hstatement, same⟩

mutual

/-- A canonical statement is read back from its tokens. -/
theorem statement_readBack : (t : Stmt) → t.Canonical → t.ReadBack
  | .expression value, h => readBack_of_statement fun n => by
    obtain ⟨value', n', hvalue, same⟩ := Expr.Canonical.reads h n
    exact ⟨_, n', .expression hvalue rfl, by simp only [Stmt.erase, same]⟩
  | .print value, h => readBack_of_statement fun n => by
    obtain ⟨value', n', hvalue, same⟩ := Expr.Canonical.reads h n
    exact ⟨_, n', .print rfl hvalue rfl, by simp only [Stmt.erase, same]⟩
  | .varDecl name none, h => fun n =>
    ⟨.varDecl name none, n, .varDecl rfl (.bare h rfl), nofun, rfl⟩
  | .varDecl name (some value), ⟨hname, h⟩ => fun n => by
    obtain ⟨value', n', hvalue, same⟩ := h.reads n
    exact ⟨.varDecl name (some value'), n', .varDecl rfl (.initialized hname rfl hvalue rfl), nofun,
      by simp only [Stmt.erase, same]⟩
  | .block statements, h => readBack_of_statement fun n => by
    obtain ⟨body, n', hbody, same⟩ := statements_readBack statements h n
    exact ⟨_, n', .block rfl hbody rfl, by simp only [Stmt.erase, same]⟩
  | .ifThen condition thenBranch, ⟨h, hstatement, hthen⟩ => by
    have branch := (statement_readBack thenBranch hthen).statement hstatement
    refine readBack_of_statement fun n => ?_
    obtain ⟨condition', n₁, hcondition, same⟩ := h.reads n
    obtain ⟨thenBranch', n₂, hthen, same'⟩ := branch n₁
    refine ⟨.ifThen condition' thenBranch', n₂, ?_, by simp only [Stmt.erase, same, same']⟩
    rw [Stmt.tokens, conditionTokens_append]
    exact .ifThen rfl rfl hcondition rfl hthen
  | .ifElse condition thenBranch elseBranch, ⟨h, hstatement, hthen, hclosed, hstatement', helse⟩ => by
    have branch := (statement_readBack thenBranch hthen).statement hstatement
    have other := (statement_readBack elseBranch helse).statement hstatement'
    refine readBack_of_statement fun n => ?_
    obtain ⟨condition', n₁, hcondition, same⟩ := h.reads n
    obtain ⟨thenBranch', n₂, hthen, same'⟩ := branch n₁
    obtain ⟨elseBranch', n₃, helse, same''⟩ := other n₂
    -- the branch in front of `else` is closed, or it would take the word
    rw [hclosed] at hthen
    refine ⟨.ifElse condition' thenBranch' elseBranch', n₃, ?_,
      by simp only [Stmt.erase, same, same', same'']⟩
    rw [Stmt.tokens, conditionTokens_append]
    exact .ifElse rfl rfl hcondition rfl hthen rfl helse
  | .whileLoop condition body, ⟨h, hstatement, hbody⟩ => by
    have body_reads := (statement_readBack body hbody).statement hstatement
    refine readBack_of_statement fun n => ?_
    obtain ⟨condition', n₁, hcondition, same⟩ := h.reads n
    obtain ⟨body', n₂, hbody, same'⟩ := body_reads n₁
    refine ⟨.whileLoop condition' body', n₂, ?_, by simp only [Stmt.erase, same, same']⟩
    rw [Stmt.tokens, conditionTokens_append]
    exact .whileLoop rfl rfl hcondition rfl hbody
  | .funDecl declaration, h => fun n => by
    obtain ⟨f, n', hroutine, same⟩ := routine_readBack declaration h n
    exact ⟨.funDecl f, n', .funDecl rfl hroutine, nofun, by simp only [Stmt.erase, same]⟩
  | .returns keyword none, h => readBack_of_statement fun n =>
    ⟨.returns keyword none, n, .returns h .none rfl, rfl⟩
  | .returns keyword (some value), ⟨hkeyword, h⟩ => readBack_of_statement fun n => by
    obtain ⟨value', n', hvalue, same⟩ := h.reads n
    exact ⟨.returns keyword (some value'), n', .returns hkeyword (.some hvalue) rfl,
      by simp only [Stmt.erase, same]⟩
  | .classDecl name methods, ⟨hname, h⟩ => fun n => by
    obtain ⟨methods', n', hmethods, same⟩ := routines_readBack methods h n
    exact ⟨.classDecl name methods', n', .classDecl rfl hname rfl hmethods rfl, nofun,
      by simp only [Stmt.erase, same]⟩

theorem statements_readBack : (body : List Stmt) → Stmt.AllCanonical body → ∀ n, ∃ body' n',
    ReadsDeclarations n (Stmt.listTokens body) body' n' ∧ Stmt.eraseAll body' = Stmt.eraseAll body
  | [], _, n => ⟨[], n, .nil, rfl⟩
  | first :: more, ⟨hfirst, hmore⟩, n => by
    obtain ⟨first', n₁, hfirst, -, same⟩ := statement_readBack first hfirst n
    obtain ⟨more', n₂, hmore, same'⟩ := statements_readBack more hmore n₁
    exact ⟨_, n₂, .cons hfirst hmore, by simp only [Stmt.eraseAll, same, same']⟩

theorem routine_readBack : (f : FunctionDecl) → f.Canonical → ∀ n, ∃ f' n',
    ReadsRoutine n f.tokens f' n' ∧ f'.erase = f.erase
  | ⟨name, params, body⟩, ⟨hname, hparams, hlength, h⟩, n => by
    obtain ⟨body', n', hbody, same⟩ := statements_readBack body h n
    have params_read := readsParameters_intersperse hparams hlength
    exact ⟨_, n', .intro hname rfl params_read rfl rfl hbody rfl,
      by simp only [FunctionDecl.erase, same]⟩

theorem routines_readBack : (methods : List FunctionDecl) → FunctionDecl.AllCanonical methods →
    ∀ n, ∃ methods' n', ReadsRoutines n (FunctionDecl.listTokens methods) methods' n' ∧
      FunctionDecl.eraseAll methods' = FunctionDecl.eraseAll methods
  | [], _, n => ⟨[], n, .nil, rfl⟩
  | first :: more, ⟨hfirst, hmore⟩, n => by
    obtain ⟨first', n₁, hfirst, same⟩ := routine_readBack first hfirst n
    obtain ⟨more', n₂, hmore, same'⟩ := routines_readBack more hmore n₁
    exact ⟨_, n₂, .cons hfirst hmore, by simp only [FunctionDecl.eraseAll, same, same']⟩

end

/-! ## Whole programs -/

/-- No token that is derived ends a source. -/
theorem derives_ne_eof {p : Grammar.Phrase} {ts : List Token} (h : Grammar.Derives p ts) :
    ∀ token ∈ ts, token.kind ≠ .eof := by
  induction h with
  | @terminal t _ h =>
    rintro _ hmem heof
    obtain rfl := List.mem_singleton.mp hmem
    rw [heof] at h
    cases t <;> simp [Grammar.Terminal.Covers] at h
  | rule _ ih | left _ ih | right _ ih | present _ ih => exact ih
  | seq _ _ ih ih' | oneOf _ _ ih ih' | oneMore _ _ ih ih' =>
    exact List.forall_mem_append.mpr ⟨ih, ih'⟩
  | absent | noneOf | noneMore => exact fun _ h => absurd h List.not_mem_nil

/-- A program that is parsed is written with what counts of its tokens, if no loop among them is
written with `for`; and a canonical program is what its tokens are parsed as, but for the identities
of its occurrences. -/
theorem tokens_faithful (nextId : OccurrenceId) :
    (∀ tokens body, NoFor (tokens.takeWhile (·.kind != .eof)) →
      (parseProgram nextId tokens).result = .ok body →
      contents (Stmt.listTokens body) = contents (tokens.takeWhile (·.kind != .eof))) ∧
    (∀ body, Stmt.AllCanonical body → ∃ body',
      (parseProgram nextId (Stmt.listTokens body)).result = .ok body' ∧
      Stmt.eraseAll body' = Stmt.eraseAll body) := by
  constructor
  · intro tokens body hfor hresult
    have run : parseProgram nextId tokens = ⟨.ok body, (parseProgram nextId tokens).nextId⟩ := by
      rw [← hresult]
    exact content_of_declarations (parseProgram_eq_ok.mp run) hfor
  · intro body h
    obtain ⟨body', n', hreads, same⟩ := statements_readBack body h nextId
    have whole : (Stmt.listTokens body).takeWhile (·.kind != .eof) = Stmt.listTokens body := by
      refine List.takeWhile_eq_self_iff.mpr fun token htoken => ?_
      exact bne_iff_ne.mpr (derives_ne_eof (Grammar.derives_of_declarations hreads) token htoken)
    have run : parseProgram nextId (Stmt.listTokens body) = ⟨.ok body', n'⟩ :=
      parseProgram_eq_ok.mpr (whole.symm ▸ hreads)
    exact ⟨body', by rw [run], same⟩

theorem tokens_faithful_assignment :
    let a : Token := ⟨.identifier, "a", 3⟩
    let source : List Token := [a, Symbol.equal.token, a, Symbol.semicolon.token, .eof 3]
    let body : List Stmt := [.expression (.assign 2 a (.var 1 a))]
    (parseProgram 0 source).result = .ok body ∧
      contents (Stmt.listTokens body) = contents (source.takeWhile (·.kind != .eof)) ∧
      ∃ body', (parseProgram 9 (Stmt.listTokens body)).result = .ok body' ∧
        Stmt.eraseAll body' = Stmt.eraseAll body := by
  intro a source body
  have parsed : (parseProgram 0 source).result = .ok body := rfl
  have noFor : NoFor (source.takeWhile (·.kind != .eof)) := by
    unfold NoFor
    decide
  have canonical : Stmt.AllCanonical body := ⟨⟨rfl, rfl⟩, trivial⟩
  exact ⟨parsed, (tokens_faithful 0).1 source body noFor parsed,
    (tokens_faithful 9).2 body canonical⟩

end Lox
