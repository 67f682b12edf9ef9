import Lox.Number.Text
import Lox.Syntax.Tree

/-!
# The text of a tree

A tree is written in prefix form, every operation in parentheses with its head in front. Operators
and names are written as they stand in the source, strings without quotes.
-/

namespace Lox

/-- Parts in parentheses, with blanks between them. -/
def parenthesized (parts : List String) : String := "(" ++ " ".intercalate parts ++ ")"

/-- The text of a constant. -/
def Literal.text : Literal → String
  | .number value => Number.treeText value
  | .string contents => contents
  | .boolean value => if value then "true" else "false"
  | .nil => "nil"

mutual

/-- The text of an expression. -/
def Expr.text : Expr → String
  | .literal value => value.text
  | .grouping inner => parenthesized ["group", inner.text]
  | .unary operator operand => parenthesized [operator.lexeme, operand.text]
  | .binary left operator right => parenthesized [operator.lexeme, left.text, right.text]
  | .logical left operator right => parenthesized [operator.lexeme, left.text, right.text]
  | .var _ name => name.lexeme
  | .assign _ name value => parenthesized ["=", name.lexeme, value.text]
  | .call callee _ arguments => parenthesized ("call" :: callee.text :: Expr.texts arguments)
  | .get object name => parenthesized [".", object.text, name.lexeme]
  | .set object name value => parenthesized [".=", object.text, name.lexeme, value.text]
  | .this .. => "this"

/-- The texts of expressions. -/
def Expr.texts : List Expr → List String
  | [] => []
  | first :: more => first.text :: Expr.texts more

end

mutual

/-- The text of a statement. -/
def Stmt.text : Stmt → String
  | .expression value => parenthesized [";", value.text]
  | .print value => parenthesized ["print", value.text]
  | .varDecl name none => parenthesized ["var", name.lexeme]
  | .varDecl name (some value) => parenthesized ["var", name.lexeme, value.text]
  | .block statements => parenthesized ("block" :: Stmt.texts statements)
  | .ifThen condition thenBranch => parenthesized ["if", condition.text, thenBranch.text]
  | .ifElse condition thenBranch elseBranch =>
    parenthesized ["if", condition.text, thenBranch.text, elseBranch.text]
  | .whileLoop condition body => parenthesized ["while", condition.text, body.text]
  | .funDecl declaration => declaration.text
  | .returns _ none => parenthesized ["return"]
  | .returns _ (some value) => parenthesized ["return", value.text]
  | .classDecl name methods => parenthesized ("class" :: name.lexeme :: FunctionDecl.texts methods)

/-- The text of a function. -/
def FunctionDecl.text : FunctionDecl → String
  | ⟨name, params, body⟩ =>
    parenthesized ("fun" :: name.lexeme :: parenthesized (params.map (·.lexeme)) :: Stmt.texts body)

/-- The texts of statements. -/
def Stmt.texts : List Stmt → List String
  | [] => []
  | first :: more => first.text :: Stmt.texts more

/-- The texts of functions. -/
def FunctionDecl.texts : List FunctionDecl → List String
  | [] => []
  | first :: more => first.text :: FunctionDecl.texts more

end

end Lox
