import Lox.Syntax.Parser.Statement

/-!
# How tokens spell a tree

The parser is a function; this is the relation that it computes. `ReadsExpr rule n ts e n'` says that
the tokens `ts` spell the expression `e` by a rule of the grammar, where the occurrences in `e` are
numbered from `n` up to `n'`. There is one such relation for each kind of tree, and each constructor
is one way to write the tree.

The grammar of the language leaves open to which `if` an `else` belongs. The relations do not: they
say of a statement whether it is *open*, that is, whether an `else` behind it would become a part of
it, and the branch in front of an `else` must not be. Nothing is said of what follows the tokens; the
parser needs that only to know where to stop.
-/

namespace Lox

/-! ## Expressions -/

/-- The rules for expressions; `climb` is for operands with the operators of some tiers. -/
inductive ExprRule where
  | whole
  | climb (tiers : List Parser.Tier)
  | prefixed
  | applied
  | primary

/-- The constant that a token stands for. -/
def TokenKind.literal? : TokenKind → Option Literal
  | .keyword .falseKw => some (.boolean false)
  | .keyword .trueKw => some (.boolean true)
  | .keyword .nilKw => some .nil
  | .number value => some (.number value)
  | .string contents => some (.string contents)
  | _ => none

mutual

/-- The tokens spell an expression. -/
inductive ReadsExpr : ExprRule → Nat → List Token → Expr → Nat → Prop
  | literal {n token value} : token.kind.literal? = some value →
      ReadsExpr .primary n [token] (.literal value) n
  | this {n token} : token.kind = .keyword .thisKw →
      ReadsExpr .primary n [token] (.this n token) (n + 1)
  | var {n token} : token.kind = .identifier →
      ReadsExpr .primary n [token] (.var n token) (n + 1)
  | grouping {n opening ts inner n' closing} : opening.kind = .symbol .leftParen →
      ReadsExpr .whole n ts inner n' → closing.kind = .symbol .rightParen →
      ReadsExpr .primary n (opening :: ts ++ [closing]) (.grouping inner) n'
  | primary {n ts e n'} : ReadsExpr .primary n ts e n' → ReadsExpr .applied n ts e n'
  | call {n ts callee n₁ opening us arguments n₂ closing} : ReadsExpr .applied n ts callee n₁ →
      opening.kind = .symbol .leftParen → ReadsArguments n₁ us arguments n₂ →
      closing.kind = .symbol .rightParen →
      ReadsExpr .applied n (ts ++ opening :: us ++ [closing]) (.call callee closing arguments) n₂
  | get {n ts object n' dot name} : ReadsExpr .applied n ts object n' →
      dot.kind = .symbol .dot → name.kind = .identifier →
      ReadsExpr .applied n (ts ++ [dot, name]) (.get object name) n'
  | applied {n ts e n'} : ReadsExpr .applied n ts e n' → ReadsExpr .prefixed n ts e n'
  | unary {n operator ts e n'} : Parser.isPrefixOperator operator = true →
      ReadsExpr .prefixed n ts e n' →
      ReadsExpr .prefixed n (operator :: ts) (.unary operator e) n'
  | prefixed {n ts e n'} : ReadsExpr .prefixed n ts e n' → ReadsExpr (.climb []) n ts e n'
  | operand {n ts e n' tier tighter} : ReadsExpr (.climb tighter) n ts e n' →
      ReadsExpr (.climb (tier :: tighter)) n ts e n'
  | operator {n ts left n₁ operator us right n₂} {tier : Parser.Tier} {tighter} :
      ReadsExpr (.climb (tier :: tighter)) n ts left n₁ →
      tier.operators.contains operator.kind = true →
      ReadsExpr (.climb tighter) n₁ us right n₂ →
      ReadsExpr (.climb (tier :: tighter)) n (ts ++ operator :: us)
        (tier.node left operator right) n₂
  | loosest {n ts e n'} : ReadsExpr (.climb Parser.tiers) n ts e n' → ReadsExpr .whole n ts e n'
  | assign {n ts id name n₁ equal us value n₂} :
      ReadsExpr (.climb Parser.tiers) n ts (.var id name) n₁ →
      equal.kind = .symbol .equal → ReadsExpr .whole n₁ us value n₂ →
      ReadsExpr .whole n (ts ++ equal :: us) (.assign n₂ name value) (n₂ + 1)
  | set {n ts object name n₁ equal us value n₂} :
      ReadsExpr (.climb Parser.tiers) n ts (.get object name) n₁ →
      equal.kind = .symbol .equal → ReadsExpr .whole n₁ us value n₂ →
      ReadsExpr .whole n (ts ++ equal :: us) (.set object name value) n₂

/-- The tokens spell arguments with commas between them, without too many of them. -/
inductive ReadsArguments : Nat → List Token → List Expr → Nat → Prop
  | none {n} : ReadsArguments n [] [] n
  | some {n ts es n'} : ReadsItems n ts es n' → es.length ≤ maxArguments →
      ReadsArguments n ts es n'

/-- The tokens spell expressions with commas between them, one at least. -/
inductive ReadsItems : Nat → List Token → List Expr → Nat → Prop
  | last {n ts e n'} : ReadsExpr .whole n ts e n' → ReadsItems n ts [e] n'
  | more {n ts e n₁ comma us es n₂} : ReadsExpr .whole n ts e n₁ →
      comma.kind = .symbol .comma → ReadsItems n₁ us es n₂ →
      ReadsItems n (ts ++ comma :: us) (e :: es) n₂

end

/-- The tokens spell an expression or nothing. -/
inductive ReadsOptional : Nat → List Token → Option Expr → Nat → Prop
  | none {n} : ReadsOptional n [] none n
  | some {n ts e n'} : ReadsExpr .whole n ts e n' → ReadsOptional n ts (some e) n'

/-! ## Parts of declarations -/

/-- The tokens spell names with commas between them, one at least. -/
inductive ReadsNames : List Token → List Token → Prop
  | last {name} : name.kind = .identifier → ReadsNames [name] [name]
  | more {name comma ts names} : name.kind = .identifier → comma.kind = .symbol .comma →
      ReadsNames ts names → ReadsNames (name :: comma :: ts) (name :: names)

/-- The tokens spell parameters, without too many of them. -/
inductive ReadsParameters : List Token → List Token → Prop
  | none : ReadsParameters [] []
  | some {ts names} : ReadsNames ts names → names.length ≤ maxArguments →
      ReadsParameters ts names

/-- The tokens spell a variable from its name on. -/
inductive ReadsVariable : Nat → List Token → Stmt → Nat → Prop
  | bare {n name semicolon} : name.kind = .identifier → semicolon.kind = .symbol .semicolon →
      ReadsVariable n [name, semicolon] (.varDecl name none) n
  | initialized {n name equal ts e n' semicolon} : name.kind = .identifier →
      equal.kind = .symbol .equal → ReadsExpr .whole n ts e n' →
      semicolon.kind = .symbol .semicolon →
      ReadsVariable n (name :: equal :: ts ++ [semicolon]) (.varDecl name (some e)) n'

/-- The tokens spell the first clause of a `for` loop, with its semicolon. -/
inductive ReadsInitializer : Nat → List Token → Option Stmt → Nat → Prop
  | none {n semicolon} : semicolon.kind = .symbol .semicolon →
      ReadsInitializer n [semicolon] none n
  | varDecl {n keyword ts s n'} : keyword.kind = .keyword .varKw → ReadsVariable n ts s n' →
      ReadsInitializer n (keyword :: ts) (some s) n'
  | expression {n ts e n' semicolon} : ReadsExpr .whole n ts e n' →
      semicolon.kind = .symbol .semicolon →
      ReadsInitializer n (ts ++ [semicolon]) (some (.expression e)) n'

/-! ## Statements and declarations -/

mutual

/-- The tokens spell a statement; the flag says whether it is open. -/
inductive ReadsStatement : Bool → Nat → List Token → Stmt → Nat → Prop
  | expression {n ts e n' semicolon} : ReadsExpr .whole n ts e n' →
      semicolon.kind = .symbol .semicolon →
      ReadsStatement false n (ts ++ [semicolon]) (.expression e) n'
  | print {n keyword ts e n' semicolon} : keyword.kind = .keyword .printKw →
      ReadsExpr .whole n ts e n' → semicolon.kind = .symbol .semicolon →
      ReadsStatement false n (keyword :: ts ++ [semicolon]) (.print e) n'
  | returns {n keyword ts value n' semicolon} : keyword.kind = .keyword .returnKw →
      ReadsOptional n ts value n' → semicolon.kind = .symbol .semicolon →
      ReadsStatement false n (keyword :: ts ++ [semicolon]) (.returns keyword value) n'
  | block {n opening ts body n' closing} : opening.kind = .symbol .leftBrace →
      ReadsDeclarations n ts body n' → closing.kind = .symbol .rightBrace →
      ReadsStatement false n (opening :: ts ++ [closing]) (.block body) n'
  | ifThen {n keyword opening ts condition n₁ closing isOpen us thenBranch n₂} :
      keyword.kind = .keyword .ifKw → opening.kind = .symbol .leftParen →
      ReadsExpr .whole n ts condition n₁ → closing.kind = .symbol .rightParen →
      ReadsStatement isOpen n₁ us thenBranch n₂ →
      ReadsStatement true n (keyword :: opening :: ts ++ closing :: us)
        (.ifThen condition thenBranch) n₂
  | ifElse {n keyword opening ts condition n₁ closing us thenBranch n₂ elseKeyword isOpen vs
        elseBranch n₃} :
      keyword.kind = .keyword .ifKw → opening.kind = .symbol .leftParen →
      ReadsExpr .whole n ts condition n₁ → closing.kind = .symbol .rightParen →
      ReadsStatement false n₁ us thenBranch n₂ → elseKeyword.kind = .keyword .elseKw →
      ReadsStatement isOpen n₂ vs elseBranch n₃ →
      ReadsStatement isOpen n (keyword :: opening :: ts ++ closing :: us ++ elseKeyword :: vs)
        (.ifElse condition thenBranch elseBranch) n₃
  | whileLoop {n keyword opening ts condition n₁ closing isOpen us body n₂} :
      keyword.kind = .keyword .whileKw → opening.kind = .symbol .leftParen →
      ReadsExpr .whole n ts condition n₁ → closing.kind = .symbol .rightParen →
      ReadsStatement isOpen n₁ us body n₂ →
      ReadsStatement isOpen n (keyword :: opening :: ts ++ closing :: us)
        (.whileLoop condition body) n₂
  | forLoop {n keyword opening ts first n₁ us condition n₂ semicolon vs step n₃ closing isOpen ws
        body n₄} :
      keyword.kind = .keyword .forKw → opening.kind = .symbol .leftParen →
      ReadsInitializer n ts first n₁ → ReadsOptional n₁ us condition n₂ →
      semicolon.kind = .symbol .semicolon → ReadsOptional n₂ vs step n₃ →
      closing.kind = .symbol .rightParen → ReadsStatement isOpen n₃ ws body n₄ →
      ReadsStatement isOpen n
        (keyword :: opening :: ts ++ us ++ semicolon :: vs ++ closing :: ws)
        (.forLoop first condition step body) n₄

/-- The tokens spell a declaration; the flag says whether it is an open statement. -/
inductive ReadsDeclaration : Bool → Nat → List Token → Stmt → Nat → Prop
  | statement {isOpen n ts s n'} : ReadsStatement isOpen n ts s n' →
      ReadsDeclaration isOpen n ts s n'
  | varDecl {n keyword ts s n'} : keyword.kind = .keyword .varKw → ReadsVariable n ts s n' →
      ReadsDeclaration false n (keyword :: ts) s n'
  | funDecl {n keyword ts f n'} : keyword.kind = .keyword .funKw → ReadsRoutine n ts f n' →
      ReadsDeclaration false n (keyword :: ts) (.funDecl f) n'
  | classDecl {n keyword name opening ts methods n' closing} : keyword.kind = .keyword .classKw →
      name.kind = .identifier → opening.kind = .symbol .leftBrace →
      ReadsRoutines n ts methods n' → closing.kind = .symbol .rightBrace →
      ReadsDeclaration false n (keyword :: name :: opening :: ts ++ [closing])
        (.classDecl name methods) n'

/-- The tokens spell declarations, one behind the other. -/
inductive ReadsDeclarations : Nat → List Token → List Stmt → Nat → Prop
  | nil {n} : ReadsDeclarations n [] [] n
  | cons {isOpen n ts s n₁ us more n₂} : ReadsDeclaration isOpen n ts s n₁ →
      ReadsDeclarations n₁ us more n₂ → ReadsDeclarations n (ts ++ us) (s :: more) n₂

/-- The tokens spell a function or method from its name on. -/
inductive ReadsRoutine : Nat → List Token → FunctionDecl → Nat → Prop
  | intro {n name opening ts params closing leftBrace us body n' rightBrace} :
      name.kind = .identifier → opening.kind = .symbol .leftParen →
      ReadsParameters ts params → closing.kind = .symbol .rightParen →
      leftBrace.kind = .symbol .leftBrace → ReadsDeclarations n us body n' →
      rightBrace.kind = .symbol .rightBrace →
      ReadsRoutine n (name :: opening :: ts ++ closing :: leftBrace :: us ++ [rightBrace])
        ⟨name, params, body⟩ n'

/-- The tokens spell methods, one behind the other. -/
inductive ReadsRoutines : Nat → List Token → List FunctionDecl → Nat → Prop
  | nil {n} : ReadsRoutines n [] [] n
  | cons {n ts f n₁ us more n₂} : ReadsRoutine n ts f n₁ → ReadsRoutines n₁ us more n₂ →
      ReadsRoutines n (ts ++ us) (f :: more) n₂

end

end Lox
