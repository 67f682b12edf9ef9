import Lox.Token.Basic

/-!
# Syntax trees

Programs are lists of statements. A tree keeps the tokens that later phases need for the line or the
text of an error: operators, names, the parenthesis that closes a call, `this` and `return`.

A name that is read or assigned to, and `this`, is an *occurrence*. Each has an identity, so that two
occurrences of one name in different scopes stay apart however alike they look.

There is no loop with a counter: `for` is a way to write `while` (see `Stmt.forLoop`).
-/

namespace Lox

/-- The identity of an occurrence. -/
abbrev OccurrenceId := Nat

/-- How many scopes lie between each bound occurrence and the scope that declares its name. -/
abbrev Distances := List (OccurrenceId × Nat)

/-- A constant in a source. -/
inductive Literal where
  | number (value : Float)
  | string (contents : String)
  | boolean (value : Bool)
  | nil
  deriving DecidableEq

/-- Expressions. -/
inductive Expr where
  | literal (value : Literal)
  | grouping (inner : Expr)
  | unary (operator : Token) (operand : Expr)
  | binary (left : Expr) (operator : Token) (right : Expr)
  | logical (left : Expr) (operator : Token) (right : Expr)
  | var (id : OccurrenceId) (name : Token)
  | assign (id : OccurrenceId) (name : Token) (value : Expr)
  | call (callee : Expr) (paren : Token) (arguments : List Expr)
  | get (object : Expr) (name : Token)
  | set (object : Expr) (name : Token) (value : Expr)
  | this (id : OccurrenceId) (keyword : Token)

instance : Inhabited Expr := ⟨.literal .nil⟩

mutual

/-- Statements. -/
inductive Stmt where
  | expression (value : Expr)
  | print (value : Expr)
  | varDecl (name : Token) (initializer : Option Expr)
  | block (statements : List Stmt)
  | ifThen (condition : Expr) (thenBranch : Stmt)
  | ifElse (condition : Expr) (thenBranch elseBranch : Stmt)
  | whileLoop (condition : Expr) (body : Stmt)
  | funDecl (declaration : FunctionDecl)
  | returns (keyword : Token) (value : Option Expr)
  | classDecl (name : Token) (methods : List FunctionDecl)

/-- Functions and methods. -/
structure FunctionDecl where
  name : Token
  params : List Token
  body : List Stmt

end

instance : Inhabited Stmt := ⟨.block []⟩
instance : Inhabited FunctionDecl := ⟨⟨.eof 0, [], []⟩⟩

/-- The loop that `for` stands for. Without a condition it runs until it is left; the initializer has
a scope of its own around the loop, and the increment runs after the body. -/
def Stmt.forLoop (initializer : Option Stmt) (condition increment : Option Expr) (body : Stmt) :
    Stmt :=
  let round := match increment with
    | none => body
    | some step => .block [body, .expression step]
  let loop := .whileLoop (condition.getD (.literal (.boolean true))) round
  match initializer with
  | none => loop
  | some first => .block [first, loop]

/-- The name of the method that prepares a new instance. -/
def initializerName : String := "init"

/-- The name that a method has for its receiver. -/
def receiverName : String := "this"

end Lox
