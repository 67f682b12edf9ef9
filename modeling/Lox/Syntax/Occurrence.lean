import Lox.Syntax.Tree

/-!
# The occurrences in a tree

Reads of a variable, assignments to one and uses of `this`, in the order of the source. An assignment
comes before what is assigned, and an object before what is stored in it.
-/

namespace Lox

/-- What an occurrence does with its name. -/
inductive Occurrence.Role where
  | read
  | assigned
  | receiver
  deriving Repr, DecidableEq

/-- A place in a tree where a name is looked up. -/
structure Occurrence where
  role : Occurrence.Role
  id : OccurrenceId
  token : Token

mutual

/-- The occurrences in an expression. -/
def Expr.occurrences : Expr → List Occurrence
  | .literal _ => []
  | .grouping inner => inner.occurrences
  | .unary _ operand => operand.occurrences
  | .binary left _ right => left.occurrences ++ right.occurrences
  | .logical left _ right => left.occurrences ++ right.occurrences
  | .var id name => [⟨.read, id, name⟩]
  | .assign id name value => ⟨.assigned, id, name⟩ :: value.occurrences
  | .call callee _ arguments => callee.occurrences ++ Expr.occurrencesIn arguments
  | .get object _ => object.occurrences
  | .set object _ value => object.occurrences ++ value.occurrences
  | .this id keyword => [⟨.receiver, id, keyword⟩]

/-- The occurrences in expressions. -/
def Expr.occurrencesIn : List Expr → List Occurrence
  | [] => []
  | first :: more => first.occurrences ++ Expr.occurrencesIn more

end

mutual

/-- The occurrences in a statement. -/
def Stmt.occurrences : Stmt → List Occurrence
  | .expression value => value.occurrences
  | .print value => value.occurrences
  | .varDecl _ none => []
  | .varDecl _ (some value) => value.occurrences
  | .block statements => Stmt.occurrencesIn statements
  | .ifThen condition thenBranch => condition.occurrences ++ thenBranch.occurrences
  | .ifElse condition thenBranch elseBranch =>
    condition.occurrences ++ thenBranch.occurrences ++ elseBranch.occurrences
  | .whileLoop condition body => condition.occurrences ++ body.occurrences
  | .funDecl declaration => declaration.occurrences
  | .returns _ none => []
  | .returns _ (some value) => value.occurrences
  | .classDecl _ methods => FunctionDecl.occurrencesIn methods

/-- The occurrences in a function. -/
def FunctionDecl.occurrences : FunctionDecl → List Occurrence
  | ⟨_, _, body⟩ => Stmt.occurrencesIn body

/-- The occurrences in statements. -/
def Stmt.occurrencesIn : List Stmt → List Occurrence
  | [] => []
  | first :: more => first.occurrences ++ Stmt.occurrencesIn more

/-- The occurrences in functions. -/
def FunctionDecl.occurrencesIn : List FunctionDecl → List Occurrence
  | [] => []
  | first :: more => first.occurrences ++ FunctionDecl.occurrencesIn more

end

end Lox
