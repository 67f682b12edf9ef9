import Lox.Bindings
import Lox.Diagnostic
import Lox.Syntax.Tree

/-!
# Binding names to scopes

Before a unit runs, every occurrence in it is bound to the scope that declares its name. Blocks,
functions and classes open scopes: parameters and body of a function share one, and the scope of a
class holds the receiver. A program as a whole opens none, and an occurrence that no scope declares
is left to the globals. The binding is a *distance*, the number of scopes between the occurrence and
the scope that declares its name.

The walk follows the order of the source, with one exception: what is stored in a property comes
before the object. Only names declared so far count, so a later declaration in an enclosing scope is
never picked up.

A name is declared before its initializer and defined after it; to read it in between is an error. So
are a second declaration in one scope, `return` outside of functions or with a value in an
initializer, and `this` outside of classes. The walk never stops early.
-/

namespace Lox

/-- What is wrong with a name, `this` or `return`, and the token at which it shows. -/
structure ScopeError where
  token : Token
  issue : ScopeIssue
  deriving DecidableEq

/-- The diagnostic of a scope error. -/
def ScopeError.diagnostic (error : ScopeError) : Diagnostic := .scoping error.token.site error.issue

/-- The names that a scope declares so far, and whether each is defined. -/
abbrev Scope := Bindings Bool

namespace Resolution

/-- The innermost function around a statement. -/
inductive FunctionContext where
  | outside
  | function
  | method
  | initializer
  deriving Repr, DecidableEq

/-- What encloses a statement, scopes apart. -/
structure Context where
  function : FunctionContext
  insideClass : Bool

/-- The context of a program. -/
def Context.outermost : Context := ⟨.outside, false⟩

/-- How far the walk has come: the open scopes, the innermost first; the distances found, the last
first; and the errors in their order. -/
structure Walk where
  scopes : List Scope
  distances : Distances
  errors : List ScopeError

namespace Walk

/-- Nothing is walked over yet. -/
def start : Walk := ⟨[], [], []⟩

/-- Notes an error. -/
def report (walk : Walk) (token : Token) (issue : ScopeIssue) : Walk :=
  { walk with errors := walk.errors ++ [⟨token, issue⟩] }

/-- Opens a scope. -/
def enter (walk : Walk) (scope : Scope) : Walk := { walk with scopes := scope :: walk.scopes }

/-- Closes the innermost scope. -/
def leave (walk : Walk) : Walk := { walk with scopes := walk.scopes.tail }

/-- Declares a name in the innermost scope, where it must be new. -/
def declare (walk : Walk) (name : Token) : Walk :=
  match walk.scopes with
  | [] => walk
  | scope :: outer =>
    if scope.contains name.lexeme then walk.report name .redeclared
    else { walk with scopes := scope.insert name.lexeme false :: outer }

/-- Makes a name of the innermost scope ready to be read. -/
def define (walk : Walk) (name : Token) : Walk :=
  match walk.scopes with
  | [] => walk
  | scope :: outer => { walk with scopes := scope.insert name.lexeme true :: outer }

/-- Declares and defines a name. -/
def introduce (walk : Walk) (name : Token) : Walk := (walk.declare name).define name

/-- The distance to the innermost scope that declares a name. -/
def distance? (walk : Walk) (name : String) : Option Nat :=
  walk.scopes.findIdx? (·.contains name)

/-- Binds an occurrence, or leaves it to the globals. -/
def bind (walk : Walk) (id : OccurrenceId) (name : Token) : Walk :=
  match walk.distance? name.lexeme with
  | none => walk
  | some distance => { walk with distances := (id, distance) :: walk.distances }

/-- Holds while the innermost scope declares a name and does not define it. -/
def isInitializing (walk : Walk) (name : String) : Bool :=
  match walk.scopes with
  | [] => false
  | scope :: _ => scope.find? name == some false

/-- Binds a read of a variable. -/
def read (walk : Walk) (id : OccurrenceId) (name : Token) : Walk :=
  let walk :=
    if walk.isInitializing name.lexeme then walk.report name .readInOwnInitializer else walk
  walk.bind id name

/-- Checks a `return`. -/
def checkReturn (walk : Walk) (context : Context) (keyword : Token) (hasValue : Bool) : Walk :=
  match context.function with
  | .outside => walk.report keyword .returnOutsideFunction
  | .initializer => if hasValue then walk.report keyword .valueFromInitializer else walk
  | .function | .method => walk

end Walk

mutual

/-- Walks over an expression. -/
def expression (insideClass : Bool) : Expr → Walk → Walk
  | .literal _, walk => walk
  | .grouping inner, walk => expression insideClass inner walk
  | .unary _ operand, walk => expression insideClass operand walk
  | .binary left _ right, walk => expression insideClass right (expression insideClass left walk)
  | .logical left _ right, walk => expression insideClass right (expression insideClass left walk)
  | .var id name, walk => walk.read id name
  | .assign id name value, walk => (expression insideClass value walk).bind id name
  | .call callee _ arguments, walk =>
    expressions insideClass arguments (expression insideClass callee walk)
  | .get object _, walk => expression insideClass object walk
  | .set object _ value, walk => expression insideClass object (expression insideClass value walk)
  | .this id keyword, walk =>
    if insideClass then walk.bind id keyword else walk.report keyword .thisOutsideClass

/-- Walks over expressions from left to right. -/
def expressions (insideClass : Bool) : List Expr → Walk → Walk
  | [], walk => walk
  | first :: more, walk => expressions insideClass more (expression insideClass first walk)

end

/-- Walks over an expression that may be missing. -/
def optional (insideClass : Bool) : Option Expr → Walk → Walk
  | none, walk => walk
  | some value, walk => expression insideClass value walk

/-- The innermost function around the body of a method. -/
def methodContext (name : Token) : FunctionContext :=
  if name.lexeme = initializerName then .initializer else .method

/-- The scope of a class before its methods. -/
def classScope : Scope := Bindings.empty.insert receiverName true

mutual

/-- Walks over a statement. -/
def statement (context : Context) : Stmt → Walk → Walk
  | .expression value, walk => expression context.insideClass value walk
  | .print value, walk => expression context.insideClass value walk
  | .varDecl name initializer, walk =>
    (optional context.insideClass initializer (walk.declare name)).define name
  | .block body, walk => (statements context body (walk.enter .empty)).leave
  | .ifThen condition thenBranch, walk =>
    statement context thenBranch (expression context.insideClass condition walk)
  | .ifElse condition thenBranch elseBranch, walk =>
    statement context elseBranch
      (statement context thenBranch (expression context.insideClass condition walk))
  | .whileLoop condition body, walk =>
    statement context body (expression context.insideClass condition walk)
  | .funDecl declaration, walk =>
    function { context with function := .function } declaration (walk.introduce declaration.name)
  | .returns keyword value, walk =>
    optional context.insideClass value (walk.checkReturn context keyword value.isSome)
  | .classDecl name declarations, walk =>
    (methods declarations ((walk.introduce name).enter classScope)).leave

/-- Walks over the parameters and the body of a function, whose context is that of its body. -/
def function (context : Context) : FunctionDecl → Walk → Walk
  | ⟨_, params, body⟩, walk =>
    (statements context body (params.foldl Walk.introduce (walk.enter .empty))).leave

/-- Walks over statements in their order. -/
def statements (context : Context) : List Stmt → Walk → Walk
  | [], walk => walk
  | first :: more, walk => statements context more (statement context first walk)

/-- Walks over the methods of a class in their order. -/
def methods : List FunctionDecl → Walk → Walk
  | [], walk => walk
  | first :: more, walk =>
    methods more (function ⟨methodContext first.name, true⟩ first walk)

end

/-- What a walk has found: errors or, if there are none, distances. -/
def Walk.result (walk : Walk) : Except (List ScopeError) Distances :=
  if walk.errors.isEmpty then .ok walk.distances else .error walk.errors

end Resolution

/-- Binds the occurrences in a program. -/
def resolveProgram (program : List Stmt) : Except (List ScopeError) Distances :=
  (Resolution.statements .outermost program .start).result

/-- Binds the occurrences in an expression that stands outside of everything. -/
def resolveExpression (value : Expr) : Except (List ScopeError) Distances :=
  (Resolution.expression false value .start).result

end Lox
