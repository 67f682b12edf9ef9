import Lox.Proofs.Token.Grammar
import Lox.Syntax.Occurrence

/-!
# One variable under another name

One variable of a block or of a function gets another name, where it is declared and where it is looked
up, and nothing else changes (`Stmt.RenamesIn`). Where it is looked up say the distances that the
resolver found: a variable is the name and the scope, and an occurrence with the name belongs to it if
it lies as many scopes inside as its distance says (`Respelling.occurrence`).

The sources of the two programs differ in the text of some names alone (`Respelt`).
-/

namespace Lox

/-- The token with another text. -/
def Token.called (token : Token) (name : String) : Token := { token with lexeme := name }

/-- A variable gets another name in a program with these distances. -/
structure Respelling where
  old : String
  new : String
  distances : Distances

namespace Respelling

variable (s : Respelling)

/-- The distance of an occurrence, if it has one. -/
def distance? (id : OccurrenceId) : Option Nat := s.distances.lookup id

/-- A name where it is declared in the scope of the variable. -/
def declared (token : Token) : Token :=
  if token.lexeme = s.old then token.called s.new else token

/-- A name where it is looked up, as many scopes inside of the scope of the variable. -/
def occurrence (depth : Nat) (id : OccurrenceId) (token : Token) : Token :=
  if s.distance? id = some depth then s.declared token else token

/-- The variable is declared by one of the statements. -/
def DeclaredBy (body : List Stmt) : Prop :=
  ∃ name value, .varDecl name value ∈ body ∧ name.lexeme = s.old

end Respelling

/-! ## The scope of the variable -/

mutual

/-- The expression with other names in place of its variables. -/
def Expr.respell (f : OccurrenceId → Token → Token) : Expr → Expr
  | .literal value => .literal value
  | .grouping inner => .grouping (inner.respell f)
  | .unary operator operand => .unary operator (operand.respell f)
  | .binary left operator right => .binary (left.respell f) operator (right.respell f)
  | .logical left operator right => .logical (left.respell f) operator (right.respell f)
  | .var id name => .var id (f id name)
  | .assign id name value => .assign id (f id name) (value.respell f)
  | .call callee paren arguments => .call (callee.respell f) paren (Expr.respellAll f arguments)
  | .get object name => .get (object.respell f) name
  | .set object name value => .set (object.respell f) name (value.respell f)
  | .this id keyword => .this id keyword

/-- The expressions with other names in place of their variables. -/
def Expr.respellAll (f : OccurrenceId → Token → Token) : List Expr → List Expr
  | [] => []
  | first :: more => first.respell f :: Expr.respellAll f more

end

mutual

/-- A statement as many scopes inside of the scope of the variable, with the new name. -/
def Stmt.respell (s : Respelling) (depth : Nat) : Stmt → Stmt
  | .expression value => .expression (value.respell (s.occurrence depth))
  | .print value => .print (value.respell (s.occurrence depth))
  | .varDecl name value =>
    .varDecl (if depth = 0 then s.declared name else name)
      (value.map (Expr.respell (s.occurrence depth)))
  | .block body => .block (Stmt.respellAll s (depth + 1) body)
  | .ifThen condition thenBranch =>
    .ifThen (condition.respell (s.occurrence depth)) (thenBranch.respell s depth)
  | .ifElse condition thenBranch elseBranch =>
    .ifElse (condition.respell (s.occurrence depth)) (thenBranch.respell s depth)
      (elseBranch.respell s depth)
  | .whileLoop condition body =>
    .whileLoop (condition.respell (s.occurrence depth)) (body.respell s depth)
  | .funDecl declaration => .funDecl (declaration.respell s depth)
  | .returns keyword value => .returns keyword (value.map (Expr.respell (s.occurrence depth)))
  -- the receiver has a scope between the class and its methods
  | .classDecl name methods => .classDecl name (FunctionDecl.respellAll s (depth + 1) methods)

/-- A function as many scopes inside of the scope of the variable, with the new name. -/
def FunctionDecl.respell (s : Respelling) (depth : Nat) : FunctionDecl → FunctionDecl
  | ⟨name, params, body⟩ => ⟨name, params, Stmt.respellAll s (depth + 1) body⟩

/-- Statements as many scopes inside of the scope of the variable, with the new name. -/
def Stmt.respellAll (s : Respelling) (depth : Nat) : List Stmt → List Stmt
  | [] => []
  | first :: more => first.respell s depth :: Stmt.respellAll s depth more

/-- Functions as many scopes inside of the scope of the variable, with the new name. -/
def FunctionDecl.respellAll (s : Respelling) (depth : Nat) : List FunctionDecl → List FunctionDecl
  | [] => []
  | first :: more => first.respell s depth :: FunctionDecl.respellAll s depth more

end

/-! ## The program around it -/

mutual

/-- A variable of one scope inside of a statement has got the new name. -/
inductive Stmt.Renames (s : Respelling) : Stmt → Stmt → Prop
  | block {body : List Stmt} : s.DeclaredBy body →
      Stmt.Renames s (.block body) (.block (Stmt.respellAll s 0 body))
  | inBlock {body body' : List Stmt} : Stmt.RenamesIn s body body' →
      Stmt.Renames s (.block body) (.block body')
  | ifThen {condition : Expr} {branch branch' : Stmt} : branch.Renames s branch' →
      Stmt.Renames s (.ifThen condition branch) (.ifThen condition branch')
  | thenBranch {condition : Expr} {first first' second : Stmt} : first.Renames s first' →
      Stmt.Renames s (.ifElse condition first second) (.ifElse condition first' second)
  | elseBranch {condition : Expr} {first second second' : Stmt} : second.Renames s second' →
      Stmt.Renames s (.ifElse condition first second) (.ifElse condition first second')
  | whileLoop {condition : Expr} {body body' : Stmt} : body.Renames s body' →
      Stmt.Renames s (.whileLoop condition body) (.whileLoop condition body')
  | funDecl {f f' : FunctionDecl} : f.Renames s f' → Stmt.Renames s (.funDecl f) (.funDecl f')
  | classDecl {name : Token} {methods methods' : List FunctionDecl} :
      FunctionDecl.RenamesIn s methods methods' →
      Stmt.Renames s (.classDecl name methods) (.classDecl name methods')

/-- A variable of a function, or of one scope inside of it, has got the new name. Parameters and body
share a scope. -/
inductive FunctionDecl.Renames (s : Respelling) : FunctionDecl → FunctionDecl → Prop
  | own {name : Token} {params : List Token} {body : List Stmt} :
      (∃ param ∈ params, param.lexeme = s.old) ∨ s.DeclaredBy body →
      FunctionDecl.Renames s ⟨name, params, body⟩
        ⟨name, params.map s.declared, Stmt.respellAll s 0 body⟩
  | inside {name : Token} {params : List Token} {body body' : List Stmt} :
      Stmt.RenamesIn s body body' →
      FunctionDecl.Renames s ⟨name, params, body⟩ ⟨name, params, body'⟩

/-- A variable of one scope inside of one of the statements has got the new name. -/
inductive Stmt.RenamesIn (s : Respelling) : List Stmt → List Stmt → Prop
  | first {first first' : Stmt} {more : List Stmt} : first.Renames s first' →
      Stmt.RenamesIn s (first :: more) (first' :: more)
  | later {first : Stmt} {more more' : List Stmt} : Stmt.RenamesIn s more more' →
      Stmt.RenamesIn s (first :: more) (first :: more')

/-- A variable of one of the functions, or of one scope inside of it, has got the new name. -/
inductive FunctionDecl.RenamesIn (s : Respelling) :
    List FunctionDecl → List FunctionDecl → Prop
  | first {first first' : FunctionDecl} {more : List FunctionDecl} : first.Renames s first' →
      FunctionDecl.RenamesIn s (first :: more) (first' :: more)
  | later {first : FunctionDecl} {more more' : List FunctionDecl} :
      FunctionDecl.RenamesIn s more more' →
      FunctionDecl.RenamesIn s (first :: more) (first :: more')

end

/-! ## Tokens and sources -/

/-- The token stays, or it is a name and has got the new one. -/
inductive Token.Respelt (new : String) : Token → Token → Prop
  | same (token : Token) : Token.Respelt new token token
  | called {token : Token} : token.kind = .identifier → Token.Respelt new token (token.called new)

/-- Each segment of the text stays, or it is a name and has got the new one. -/
inductive TextRespelt (new : String) : List Char → List Char → Prop
  | nil : TextRespelt new [] []
  | same {c : Char} {cs rest' : List Char} : TextRespelt new (segment c cs).rest rest' →
      TextRespelt new (c :: cs) ((segment c cs).text ++ rest')
  | called {c : Char} {cs rest' : List Char} : (segment c cs).content = .kind .identifier →
      TextRespelt new (segment c cs).rest rest' →
      TextRespelt new (c :: cs) (new.toList ++ rest')

/-- The source differs from another one in that some of its names are the new one. -/
def SourceRespelt (new source source' : String) : Prop :=
  TextRespelt new source.toList source'.toList

end Lox
