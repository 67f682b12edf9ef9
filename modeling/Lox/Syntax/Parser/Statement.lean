import Lox.Syntax.Parser.Expression

/-!
# The grammar of statements

    program     → declaration*
    declaration → class | "fun" function | variable | statement
    class       → "class" IDENT "{" function* "}"
    function    → IDENT "(" parameters? ")" block
    variable    → "var" IDENT ( "=" expression )? ";"
    statement   → for | if | while | return | block | print | expression ";"
    for         → "for" "(" ( variable | expression ";" | ";" ) expression? ";" expression? ")"
                  statement
    if          → "if" "(" expression ")" statement ( "else" statement )?
    while       → "while" "(" expression ")" statement
    return      → "return" expression? ";"
    block       → "{" declaration* "}"
    print       → "print" expression ";"

An error ends the innermost declaration, and reading goes on behind it. The statements and
declarations inside a rule are always behind a token that the rule takes itself, so the number of
tokens that are left bounds how deep they nest.
-/

namespace Lox.Parser

/-! ### Parts of declarations -/

/-- Declarations up to a closing brace or the end. -/
def declarationsInside (declaration : Parser (Option Stmt)) : Parser (List Stmt) := do
  let read ← collect fun _ => do
    if (← sees (.symbol .rightBrace)) || (← atEnd) then return none
    else return some (← declaration)
  return read.filterMap id

/-- What stands in braces, behind the opening one. -/
def block (declaration : Parser (Option Stmt)) : Parser (List Stmt) := do
  let statements ← declarationsInside declaration
  let _ ← expectMark .rightBrace .afterBlock
  return statements

/-- A function or method from its name on. -/
def routine (kind : Routine) (declaration : Parser (Option Stmt)) : Parser FunctionDecl := do
  let name ← expect .identifier (.routineName kind)
  let _ ← expectMark .leftParen (.afterRoutineName kind)
  let params ← listed .tooManyParameters (expect .identifier .parameterName)
  let _ ← expectMark .rightParen .afterParameters
  let _ ← expectMark .leftBrace (.beforeRoutineBody kind)
  let body ← block declaration
  return ⟨name, params, body⟩

/-- A class from its name on. -/
def classDeclaration (declaration : Parser (Option Stmt)) : Parser Stmt := do
  let name ← expect .identifier .className
  let _ ← expectMark .leftBrace .beforeClassBody
  let methods ← collect fun _ => do
    if (← sees (.symbol .rightBrace)) || (← atEnd) then return none
    else return some (← routine .method declaration)
  let _ ← expectMark .rightBrace .afterClassBody
  return .classDecl name methods

/-- A variable from its name on. -/
def varDeclaration : Parser Stmt := do
  let name ← expect .identifier .variableName
  let initializer ← if ← accept (.symbol .equal) then some <$> expression else pure none
  let _ ← expectMark .semicolon .afterVariable
  return .varDecl name initializer

/-! ### Statements -/

/-- An expression as a statement. -/
def expressionStatement : Parser Stmt := do
  let value ← expression
  let _ ← expectMark .semicolon .afterExpression
  return .expression value

/-- What is printed, behind `print`. -/
def printStatement : Parser Stmt := do
  let value ← expression
  let _ ← expectMark .semicolon .afterValue
  return .print value

/-- What is returned, behind `return`. -/
def returnStatement (keyword : Token) : Parser Stmt := do
  let value ← if ← sees (.symbol .semicolon) then pure none else some <$> expression
  let _ ← expectMark .semicolon .afterReturnValue
  return .returns keyword value

/-- A condition and its branches, behind `if`. -/
def ifStatement (statement : Parser Stmt) : Parser Stmt := do
  let _ ← expectMark .leftParen .afterIf
  let condition ← expression
  let _ ← expectMark .rightParen .afterIfCondition
  let thenBranch ← statement
  if ← accept (.keyword .elseKw) then
    return .ifElse condition thenBranch (← statement)
  else return .ifThen condition thenBranch

/-- A condition and a body, behind `while`. -/
def whileStatement (statement : Parser Stmt) : Parser Stmt := do
  let _ ← expectMark .leftParen .afterWhile
  let condition ← expression
  let _ ← expectMark .rightParen .afterCondition
  let body ← statement
  return .whileLoop condition body

/-- The first clause of a `for` loop, with its semicolon. -/
def forInitializer : Parser (Option Stmt) := do
  if ← accept (.symbol .semicolon) then return none
  else if ← accept (.keyword .varKw) then return some (← varDeclaration)
  else return some (← expressionStatement)

/-- Clauses and a body, behind `for`. -/
def forStatement (statement : Parser Stmt) : Parser Stmt := do
  let _ ← expectMark .leftParen .afterFor
  let initializer ← forInitializer
  let condition ← if ← sees (.symbol .semicolon) then pure none else some <$> expression
  let _ ← expectMark .semicolon .afterLoopCondition
  let increment ← if ← sees (.symbol .rightParen) then pure none else some <$> expression
  let _ ← expectMark .rightParen .afterForClauses
  let body ← statement
  return .forLoop initializer condition increment body

/-- A statement, from the parsers for the statements and declarations in it. -/
def statementRule (statement : Parser Stmt) (declaration : Parser (Option Stmt)) :
    Parser Stmt := do
  let token ← here
  if ← accept (.keyword .forKw) then forStatement statement
  else if ← accept (.keyword .ifKw) then ifStatement statement
  else if ← accept (.keyword .whileKw) then whileStatement statement
  else if ← accept (.keyword .returnKw) then returnStatement token
  else if ← accept (.symbol .leftBrace) then return .block (← block declaration)
  else if ← accept (.keyword .printKw) then printStatement
  else expressionStatement

/-- A declaration, from the parsers for a statement in its place and for the declarations in it. -/
def declarationRule (statement : Parser Stmt) (declaration : Parser (Option Stmt)) :
    Parser (Option Stmt) :=
  recovering do
    if ← accept (.keyword .classKw) then classDeclaration declaration
    else if ← accept (.keyword .funKw) then return .funDecl (← routine .function declaration)
    else if ← accept (.keyword .varKw) then varDeclaration
    else statement

/-! ### Programs -/

mutual

/-- Statements that nest less than `depth` deep. -/
def statementUpTo : Nat → Parser Stmt
  | 0 => fail (.expected .expression)
  | depth + 1 => statementRule (statementUpTo depth) (declarationUpTo depth)

/-- Declarations that nest less than `depth` deep. -/
def declarationUpTo : Nat → Parser (Option Stmt)
  | 0 => return none
  | depth + 1 =>
    declarationRule (statementRule (statementUpTo depth) (declarationUpTo depth))
      (declarationUpTo depth)

end

/-- A declaration; none if it is in error, and then the next boundary is reached. -/
def declaration : Parser (Option Stmt) := do
  declarationUpTo ((← get).rest.length + 1)

/-- A whole program. -/
def program : Parser (List Stmt) := do
  let read ← collect fun _ => do
    if ← atEnd then return none else return some (← declaration)
  return read.filterMap id

end Lox.Parser

namespace Lox

/-- Reads tokens as a program, its occurrences numbered from `nextId` on. -/
def parseProgram (nextId : OccurrenceId) (tokens : List Token) : Parser.Outcome (List Stmt) :=
  Parser.program.run nextId tokens

end Lox
