import Lox.Text.Utf8
import Lox.Token.Basic

/-!
# Diagnostics

A `Diagnostic` says what went wrong and where. There is one type of causes for each phase: reading
characters, reading tokens, binding names and running. The first three are *static*; a unit with a
static diagnostic is never run. What the outside world can do wrong is a cause as well: output that
cannot be written, input that is not text.

All wording is here. A host can add causes of its own in its own words, through the constructors
named `other` and `host`.
-/

namespace Lox

/-! ### Causes -/

/-- What can be wrong with characters. -/
inductive LexicalIssue where
  | unexpectedCharacter (c : Char)
  | unterminatedString
  | other (message : String)
  deriving Repr, DecidableEq

/-- Functions stand on their own or belong to a class. -/
inductive Routine where
  | function
  | method
  deriving Repr, DecidableEq

/-- The place of a mark that a rule of the grammar asks for. -/
inductive MarkPlace where
  | beforeClassBody
  | afterClassBody
  | afterRoutineName (routine : Routine)
  | afterParameters
  | beforeRoutineBody (routine : Routine)
  | afterVariable
  | afterFor
  | afterLoopCondition
  | afterForClauses
  | afterValue
  | afterExpression
  | afterIf
  | afterIfCondition
  | afterWhile
  | afterCondition
  | afterReturnValue
  | afterBlock
  | afterArguments
  | afterGroup
  deriving Repr, DecidableEq

/-- What a rule of the grammar asks for. -/
inductive Expectation where
  | className
  | routineName (routine : Routine)
  | parameterName
  | variableName
  | propertyName
  | mark (symbol : Symbol) (place : MarkPlace)
  | expression
  | endOfExpression
  deriving Repr, DecidableEq

/-- What can be wrong with tokens. -/
inductive SyntaxIssue where
  | expected (what : Expectation)
  | tooManyParameters
  | tooManyArguments
  | invalidTarget
  | other (message : String)
  deriving Repr, DecidableEq

/-- What can be wrong with names, `this` and `return`. -/
inductive ScopeIssue where
  | redeclared
  | readInOwnInitializer
  | returnOutsideFunction
  | valueFromInitializer
  | thisOutsideClass
  | other (message : String)
  deriving Repr, DecidableEq

/-- What can go wrong in a run. -/
inductive Fault where
  | undefinedVariable (name : String)
  | undefinedProperty (name : String)
  | propertyOfNonInstance
  | fieldOfNonInstance
  | notCallable
  | wrongArity (expected got : Nat)
  | operandNotNumber
  | operandsNotNumbers
  | operandsNotAddable
  | invalidUnaryOperator
  | invalidBinaryOperator
  | host (message : String)
  deriving Repr, DecidableEq

/-- The most parameters that a function may have, and the most arguments that a call may have. -/
def maxArguments : Nat := 8

/-! ### Wording -/

/-- The words for what is wrong with characters. -/
def LexicalIssue.message : LexicalIssue → String
  | unexpectedCharacter c => "Unexpected character: " ++ c.toString
  | unterminatedString => "Unterminated string."
  | other message => message

/-- The word for a kind of function. -/
def Routine.word : Routine → String
  | function => "function"
  | method => "method"

/-- The words for the place of a mark. -/
def MarkPlace.phrase : MarkPlace → String
  | beforeClassBody => "before class body"
  | afterClassBody => "after class body"
  | afterRoutineName routine => "after " ++ routine.word ++ " name"
  | afterParameters => "after parameters"
  | beforeRoutineBody routine => "before " ++ routine.word ++ " body"
  | afterVariable => "after variable declaration"
  | afterFor => "after 'for'"
  | afterLoopCondition => "after loop condition"
  | afterForClauses => "after for clauses"
  | afterValue => "after value"
  | afterExpression => "after expression"
  | afterIf => "after 'if'"
  | afterIfCondition => "after if condition"
  | afterWhile => "after 'while'"
  | afterCondition => "after condition"
  | afterReturnValue => "after return value"
  | afterBlock => "after block"
  | afterArguments => "after arguments"
  | afterGroup => "after expression"

/-- The words for what a rule of the grammar asks for. -/
def Expectation.phrase : Expectation → String
  | className => "class name"
  | routineName routine => routine.word ++ " name"
  | parameterName => "parameter name"
  | variableName => "variable name"
  | propertyName => "property name after '.'"
  | mark symbol place => "'" ++ symbol.spelling ++ "' " ++ place.phrase
  | expression => "expression"
  | endOfExpression => "end of expression"

/-- The words for what is wrong with tokens. -/
def SyntaxIssue.message : SyntaxIssue → String
  | expected what => "Expected " ++ what.phrase ++ "."
  | tooManyParameters => s!"Cannot have more than {maxArguments} parameters."
  | tooManyArguments => s!"Cannot have more than {maxArguments} arguments."
  | invalidTarget => "Invalid assignment target."
  | other message => message

/-- The words for what is wrong with names, `this` and `return`. -/
def ScopeIssue.message : ScopeIssue → String
  | redeclared => "Variable with this name already declared in this scope."
  | readInOwnInitializer => "Cannot read local variable in its own initializer."
  | returnOutsideFunction => "Cannot return from top-level code."
  | valueFromInitializer => "Cannot return a value from an initializer."
  | thisOutsideClass => "Cannot use 'this' outside of a class."
  | other message => message

/-- The words for what went wrong in a run. -/
def Fault.message : Fault → String
  | undefinedVariable name => "Undefined variable '" ++ name ++ "'."
  | undefinedProperty name => "Undefined property '" ++ name ++ "'."
  | propertyOfNonInstance => "Only instances have properties."
  | fieldOfNonInstance => "Only instances have fields."
  | notCallable => "Can only call functions and classes."
  | wrongArity expected got => s!"Expected {expected} arguments but got {got}."
  | operandNotNumber => "Operand must be a number."
  | operandsNotNumbers => "Operands must be numbers."
  | operandsNotAddable => "Operands must be two numbers or two strings."
  | invalidUnaryOperator => "Invalid unary operator."
  | invalidBinaryOperator => "Invalid binary operator."
  | host message => message

/-! ### Diagnostics -/

/-- The token at which a static diagnostic lies: its line and, but for the end of the source, its
lexeme. -/
structure Site where
  line : Nat
  lexeme? : Option String
  deriving Repr, DecidableEq

/-- The site of a token. -/
def Token.site (token : Token) : Site where
  line := token.line
  lexeme? := if token.kind = .eof then none else some token.lexeme

/-- The words for a site. -/
def Site.phrase (site : Site) : String :=
  match site.lexeme? with
  | none => " at end"
  | some lexeme => " at '" ++ lexeme ++ "'"

/-- What went wrong, and where. -/
inductive Diagnostic where
  | lexical (line : Nat) (issue : LexicalIssue)
  | syntactic (site : Site) (issue : SyntaxIssue)
  | scoping (site : Site) (issue : ScopeIssue)
  | runtime (line : Nat) (fault : Fault)
  | output (message : String)
  | encoding (issue : Utf8.Issue)
  deriving Repr, DecidableEq

namespace Diagnostic

/-- What went wrong, without the place. -/
def message : Diagnostic → String
  | lexical _ issue => issue.message
  | syntactic _ issue => issue.message
  | scoping _ issue => issue.message
  | runtime _ fault => fault.message
  | output message => message
  | encoding issue => issue.message

/-- The text of a static diagnostic. -/
def placed (line : Nat) (place message : String) : String :=
  s!"[line {line}] Error{place}: {message}"

/-- What went wrong, with the place. -/
def text : Diagnostic → String
  | lexical line issue => placed line "" issue.message
  | syntactic site issue => placed site.line site.phrase issue.message
  | scoping site issue => placed site.line site.phrase issue.message
  | runtime line fault => s!"{fault.message}\n[line {line}]"
  | output message => message
  | encoding issue => issue.message

/-- Holds of diagnostics that are found before a unit is run. -/
def isStatic : Diagnostic → Bool
  | lexical .. | syntactic .. | scoping .. => true
  | runtime .. | output .. | encoding .. => false

/-- The exit code of a program that ends with a diagnostic. -/
def exitCode : Diagnostic → Nat
  | lexical .. | syntactic .. | scoping .. => 65
  | runtime .. => 70
  | output .. | encoding .. => 74

end Diagnostic

end Lox
