import Lox.Syntax.Parser.Basic

/-!
# The grammar of expressions

    expression → target "=" expression | tier 1
    tier n     → tier (n + 1) ( operator tier (n + 1) )*        from the loosest to the tightest
    prefixed   → ( "!" | "-" )* applied                         behind the tightest tier
    applied    → primary ( "(" arguments? ")" | "." IDENT )*
    primary    → NUMBER | STRING | "true" | "false" | "nil" | "this" | IDENT | "(" expression ")"

A target is a name or a property. It is read as an expression, and what it is shows only before the
equals sign; anything else there is reported and keeps its place in the tree.

Each rule is a function of the parser for the whole expressions inside it, which are always behind a
token that the rule takes itself. `expressionUpTo` ties the knot, and its bound is the number of
tokens that are left.
-/

namespace Lox.Parser

/-! ### Tiers of binary operators -/

/-- Operators of one strength, and the tree for one of them. -/
structure Tier where
  operators : List TokenKind
  node : Expr → Token → Expr → Expr

/-- The tiers from the loosest to the tightest. -/
def tiers : List Tier :=
  [⟨[.keyword .orKw], .logical⟩,
    ⟨[.keyword .andKw], .logical⟩,
    ⟨[.symbol .bangEqual, .symbol .equalEqual], .binary⟩,
    ⟨[.symbol .greater, .symbol .greaterEqual, .symbol .less, .symbol .lessEqual], .binary⟩,
    ⟨[.symbol .minus, .symbol .plus], .binary⟩,
    ⟨[.symbol .slash, .symbol .star], .binary⟩]

/-- Reads an operator of the tier and its right operand behind `left`, if there is one. -/
def Tier.extend (tier : Tier) (operand : Parser Expr) (left : Expr) : Parser (Option Expr) := do
  match ← acceptIf fun token => tier.operators.contains token.kind with
  | none => return none
  | some operator => return some (tier.node left operator (← operand))

/-- Reads operands with the operators of all tiers between them. Equally strong operators associate
to the left. -/
def climb (operand : Parser Expr) : List Tier → Parser Expr
  | [] => operand
  | tier :: tighter => do
    let left ← climb operand tighter
    iterate (tier.extend (climb operand tighter)) left

/-! ### Operands -/

/-- Takes the next token and gives a tree for it. -/
def leaf (tree : Expr) : Parser Expr := do
  skip
  return tree

/-- Constants, `this`, names and parentheses. -/
def primary (expression : Parser Expr) : Parser Expr := do
  let token ← here
  match token.kind with
  | .keyword .falseKw => leaf (.literal (.boolean false))
  | .keyword .trueKw => leaf (.literal (.boolean true))
  | .keyword .nilKw => leaf (.literal .nil)
  | .number value => leaf (.literal (.number value))
  | .string contents => leaf (.literal (.string contents))
  | .keyword .thisKw => leaf (.this (← freshId) token)
  | .identifier => leaf (.var (← freshId) token)
  | .symbol .leftParen =>
    skip
    let inner ← expression
    let _ ← expectMark .rightParen .afterGroup
    return .grouping inner
  | _ => fail (.expected .expression)

/-- Reads a call of `callee` or a property of it, if there is one. -/
def application (expression : Parser Expr) (callee : Expr) : Parser (Option Expr) := do
  if ← accept (.symbol .leftParen) then
    let arguments ← listed .tooManyArguments expression
    let paren ← expectMark .rightParen .afterArguments
    return some (.call callee paren arguments)
  else if ← accept (.symbol .dot) then
    let name ← expect .identifier .propertyName
    return some (.get callee name)
  else return none

/-- Calls and properties, which associate to the left. -/
def applied (expression : Parser Expr) : Parser Expr := do
  iterate (application expression) (← primary expression)

/-- Holds of the operators that stand before their operand. -/
def isPrefixOperator (token : Token) : Bool :=
  token.kind == .symbol .bang || token.kind == .symbol .minus

/-- An operand with the operators before it, the innermost of which is the last. -/
def prefixed (expression : Parser Expr) : Parser Expr := do
  let operators ← acceptWhile isPrefixOperator
  return operators.foldr .unary (← applied expression)

/-! ### Whole expressions -/

/-- The assignment of `value` to `target`; one that cannot be assigned to is reported as `error`. -/
def assignmentTo (target : Expr) (error : SyntaxError) (value : Expr) : Parser Expr :=
  match target with
  | .var _ name => return .assign (← freshId) name value
  | .get object name => return .set object name value
  | other => do
    note error
    return other

/-- An expression and, behind an equals sign, what is assigned to it. -/
def assignment (expression : Parser Expr) : Parser Expr := do
  let target ← climb (prefixed expression) tiers
  let error := (← get).error .invalidTarget
  if ← accept (.symbol .equal) then
    let value ← expression
    assignmentTo target error value
  else return target

/-- Expressions in which whole expressions are nested less than `depth` deep. -/
def expressionUpTo : Nat → Parser Expr
  | 0 => fail (.expected .expression)
  | depth + 1 => assignment (expressionUpTo depth)

/-- An expression. -/
def expression : Parser Expr := do
  expressionUpTo ((← get).rest.length + 1)

/-- An expression and nothing behind it. -/
def loneExpression : Parser Expr := do
  let tree ← expression
  if ← atEnd then return tree else fail (.expected .endOfExpression)

end Lox.Parser

namespace Lox

/-- Reads tokens as one expression, its occurrences numbered from `nextId` on. -/
def parseExpression (nextId : OccurrenceId) (tokens : List Token) : Parser.Outcome Expr :=
  Parser.loneExpression.run nextId tokens

end Lox
