import Lox.Proofs.Token.Joining
import Lox.Syntax.Parser.Statement

/-!
# Trees with other identities and lines

Where a unit stands does not show in its tree, but for two things: the identities of its occurrences go
on from those of earlier units, and its lines are those of its source. A `Relabeling` says what becomes
of both.
-/

namespace Lox

/-- Other identities of occurrences and other lines. -/
structure Relabeling where
  id : OccurrenceId → OccurrenceId
  line : Nat → Nat

namespace Relabeling

/-- Other lines alone. -/
def lines (line : Nat → Nat) : Relabeling := ⟨fun id => id, line⟩

/-- Nothing else. -/
def none : Relabeling := lines fun line => line

/-- Identities that are larger by the same number, and other lines. -/
def shift (step : Nat) (line : Nat → Nat) : Relabeling := ⟨(· + step), line⟩

/-- Without identities and lines. -/
def blank : Relabeling := ⟨fun _ => 0, fun _ => 0⟩

/-- One after another. -/
def after (r r' : Relabeling) : Relabeling where
  id id := r.id (r'.id id)
  line line := r.line (r'.line line)

/-- A token on another line. -/
def token (r : Relabeling) (token : Token) : Token := token.relined r.line

end Relabeling

/-! ## Trees -/

mutual

/-- The expression with other identities and lines. -/
def Expr.relabel (r : Relabeling) : Expr → Expr
  | .literal value => .literal value
  | .grouping inner => .grouping (inner.relabel r)
  | .unary operator operand => .unary (r.token operator) (operand.relabel r)
  | .binary left operator right => .binary (left.relabel r) (r.token operator) (right.relabel r)
  | .logical left operator right => .logical (left.relabel r) (r.token operator) (right.relabel r)
  | .var id name => .var (r.id id) (r.token name)
  | .assign id name value => .assign (r.id id) (r.token name) (value.relabel r)
  | .call callee paren arguments =>
    .call (callee.relabel r) (r.token paren) (Expr.relabelAll r arguments)
  | .get object name => .get (object.relabel r) (r.token name)
  | .set object name value => .set (object.relabel r) (r.token name) (value.relabel r)
  | .this id keyword => .this (r.id id) (r.token keyword)

/-- The expressions with other identities and lines. -/
def Expr.relabelAll (r : Relabeling) : List Expr → List Expr
  | [] => []
  | first :: more => first.relabel r :: Expr.relabelAll r more

end

mutual

/-- The statement with other identities and lines. -/
def Stmt.relabel (r : Relabeling) : Stmt → Stmt
  | .expression value => .expression (value.relabel r)
  | .print value => .print (value.relabel r)
  | .varDecl name value => .varDecl (r.token name) (value.map (Expr.relabel r))
  | .block body => .block (Stmt.relabelAll r body)
  | .ifThen condition thenBranch => .ifThen (condition.relabel r) (thenBranch.relabel r)
  | .ifElse condition thenBranch elseBranch =>
    .ifElse (condition.relabel r) (thenBranch.relabel r) (elseBranch.relabel r)
  | .whileLoop condition body => .whileLoop (condition.relabel r) (body.relabel r)
  | .funDecl declaration => .funDecl (declaration.relabel r)
  | .returns keyword value => .returns (r.token keyword) (value.map (Expr.relabel r))
  | .classDecl name methods => .classDecl (r.token name) (FunctionDecl.relabelAll r methods)

/-- The function with other identities and lines. -/
def FunctionDecl.relabel (r : Relabeling) : FunctionDecl → FunctionDecl
  | ⟨name, params, body⟩ => ⟨r.token name, params.map r.token, Stmt.relabelAll r body⟩

/-- The statements with other identities and lines. -/
def Stmt.relabelAll (r : Relabeling) : List Stmt → List Stmt
  | [] => []
  | first :: more => first.relabel r :: Stmt.relabelAll r more

/-- The functions with other identities and lines. -/
def FunctionDecl.relabelAll (r : Relabeling) : List FunctionDecl → List FunctionDecl
  | [] => []
  | first :: more => first.relabel r :: FunctionDecl.relabelAll r more

end

theorem Expr.relabelAll_eq_map (r : Relabeling) (es : List Expr) :
    Expr.relabelAll r es = es.map (Expr.relabel r) := by
  induction es with
  | nil => rfl
  | cons first es ih => rw [Expr.relabelAll, ih, List.map_cons]

theorem Stmt.relabelAll_eq_map (r : Relabeling) (body : List Stmt) :
    Stmt.relabelAll r body = body.map (Stmt.relabel r) := by
  induction body with
  | nil => rfl
  | cons first body ih => rw [Stmt.relabelAll, ih, List.map_cons]

theorem FunctionDecl.relabelAll_eq_map (r : Relabeling) (fs : List FunctionDecl) :
    FunctionDecl.relabelAll r fs = fs.map (FunctionDecl.relabel r) := by
  induction fs with
  | nil => rfl
  | cons first fs ih => rw [FunctionDecl.relabelAll, ih, List.map_cons]

/-! ### One relabeling after another -/

namespace Relabeling

variable (r r' : Relabeling)

@[simp] theorem id_after (id : OccurrenceId) : (r.after r').id id = r.id (r'.id id) := rfl

@[simp] theorem token_token (token : Token) :
    r.token (r'.token token) = (r.after r').token token := rfl

@[simp] theorem id_none (id : OccurrenceId) : none.id id = id := rfl

@[simp] theorem token_none (token : Token) : none.token token = token := rfl

@[simp] theorem kind_token (token : Token) : (r.token token).kind = token.kind := rfl

@[simp] theorem lexeme_token (token : Token) : (r.token token).lexeme = token.lexeme := rfl

end Relabeling

section

variable (r r' : Relabeling)

mutual

@[simp] theorem Expr.relabel_relabel : (e : Expr) →
    (e.relabel r').relabel r = e.relabel (r.after r')
  | .literal _ | .var .. | .this .. => rfl
  | .grouping inner => by simp [Expr.relabel, inner.relabel_relabel]
  | .unary _ operand => by simp [Expr.relabel, operand.relabel_relabel]
  | .binary left _ right | .logical left _ right => by
    simp [Expr.relabel, left.relabel_relabel, right.relabel_relabel]
  | .assign _ _ value => by simp [Expr.relabel, value.relabel_relabel]
  | .call callee _ arguments => by
    simp [Expr.relabel, callee.relabel_relabel, Expr.relabelAll_relabelAll arguments]
  | .get object _ => by simp [Expr.relabel, object.relabel_relabel]
  | .set object _ value => by
    simp [Expr.relabel, object.relabel_relabel, value.relabel_relabel]

theorem Expr.relabelAll_relabelAll : (es : List Expr) →
    Expr.relabelAll r (Expr.relabelAll r' es) = Expr.relabelAll (r.after r') es
  | [] => rfl
  | first :: more => by
    simp [Expr.relabelAll, first.relabel_relabel, Expr.relabelAll_relabelAll more]

end

theorem Expr.relabel_optional (value : Option Expr) :
    (value.map (Expr.relabel r')).map (Expr.relabel r) = value.map (Expr.relabel (r.after r')) := by
  cases value with
  | none => rfl
  | some value => simp

mutual

@[simp] theorem Stmt.relabel_relabel : (t : Stmt) →
    (t.relabel r').relabel r = t.relabel (r.after r')
  | .expression _ | .print _ => by simp [Stmt.relabel]
  | .varDecl .. | .returns .. => by
    simp only [Stmt.relabel, Expr.relabel_optional, Relabeling.token_token]
  | .block body => by simp [Stmt.relabel, Stmt.relabelAll_relabelAll body]
  | .ifThen _ thenBranch => by simp [Stmt.relabel, thenBranch.relabel_relabel]
  | .ifElse _ thenBranch elseBranch => by
    simp [Stmt.relabel, thenBranch.relabel_relabel, elseBranch.relabel_relabel]
  | .whileLoop _ body => by simp [Stmt.relabel, body.relabel_relabel]
  | .funDecl declaration => by simp [Stmt.relabel, declaration.relabel_relabel]
  | .classDecl _ methods => by simp [Stmt.relabel, FunctionDecl.relabelAll_relabelAll methods]

@[simp] theorem FunctionDecl.relabel_relabel : (f : FunctionDecl) →
    (f.relabel r').relabel r = f.relabel (r.after r')
  | ⟨_, _, body⟩ => by
    simp [FunctionDecl.relabel, Stmt.relabelAll_relabelAll body, Function.comp_def]

theorem Stmt.relabelAll_relabelAll : (body : List Stmt) →
    Stmt.relabelAll r (Stmt.relabelAll r' body) = Stmt.relabelAll (r.after r') body
  | [] => rfl
  | first :: more => by
    simp [Stmt.relabelAll, first.relabel_relabel, Stmt.relabelAll_relabelAll more]

theorem FunctionDecl.relabelAll_relabelAll : (fs : List FunctionDecl) →
    FunctionDecl.relabelAll r (FunctionDecl.relabelAll r' fs) =
      FunctionDecl.relabelAll (r.after r') fs
  | [] => rfl
  | first :: more => by
    simp [FunctionDecl.relabelAll, first.relabel_relabel, FunctionDecl.relabelAll_relabelAll more]

end

end

mutual

@[simp] theorem Expr.relabel_none : (e : Expr) → e.relabel .none = e
  | .literal _ | .var .. | .this .. => rfl
  | .grouping inner => by simp [Expr.relabel, inner.relabel_none]
  | .unary _ operand => by simp [Expr.relabel, operand.relabel_none]
  | .binary left _ right | .logical left _ right => by
    simp [Expr.relabel, left.relabel_none, right.relabel_none]
  | .assign _ _ value => by simp [Expr.relabel, value.relabel_none]
  | .call callee _ arguments => by
    simp [Expr.relabel, callee.relabel_none, Expr.relabelAll_none arguments]
  | .get object _ => by simp [Expr.relabel, object.relabel_none]
  | .set object _ value => by simp [Expr.relabel, object.relabel_none, value.relabel_none]

theorem Expr.relabelAll_none : (es : List Expr) → Expr.relabelAll .none es = es
  | [] => rfl
  | first :: more => by simp [Expr.relabelAll, first.relabel_none, Expr.relabelAll_none more]

end

mutual

theorem Stmt.relabel_none : (t : Stmt) → t.relabel .none = t
  | .expression _ | .print _ => by simp [Stmt.relabel]
  | .varDecl _ value | .returns _ value => by cases value <;> simp [Stmt.relabel]
  | .block body => by simp [Stmt.relabel, Stmt.relabelAll_none body]
  | .ifThen _ thenBranch => by simp [Stmt.relabel, thenBranch.relabel_none]
  | .ifElse _ thenBranch elseBranch => by
    simp [Stmt.relabel, thenBranch.relabel_none, elseBranch.relabel_none]
  | .whileLoop _ body => by simp [Stmt.relabel, body.relabel_none]
  | .funDecl declaration => by simp [Stmt.relabel, declaration.relabel_none]
  | .classDecl _ methods => by simp [Stmt.relabel, FunctionDecl.relabelAll_none methods]

theorem FunctionDecl.relabel_none : (f : FunctionDecl) → f.relabel .none = f
  | ⟨_, params, body⟩ => by
    have same : params.map Relabeling.none.token = params := List.map_id params
    simp [FunctionDecl.relabel, Stmt.relabelAll_none body, same]

theorem Stmt.relabelAll_none : (body : List Stmt) → Stmt.relabelAll .none body = body
  | [] => rfl
  | first :: more => by simp [Stmt.relabelAll, first.relabel_none, Stmt.relabelAll_none more]

theorem FunctionDecl.relabelAll_none : (fs : List FunctionDecl) →
    FunctionDecl.relabelAll .none fs = fs
  | [] => rfl
  | first :: more => by
    simp [FunctionDecl.relabelAll, first.relabel_none, FunctionDecl.relabelAll_none more]

end

/-! ## Steady relabelings -/

/-- A relabeling that keeps the order of new identities. -/
def Relabeling.IsSteady (r : Relabeling) : Prop := ∀ id, r.id (id + 1) = r.id id + 1

theorem Relabeling.steady_lines (line : Nat → Nat) : (lines line).IsSteady := fun _ => rfl

theorem Relabeling.steady_shift (step : Nat) (line : Nat → Nat) : (shift step line).IsSteady :=
  fun id => Nat.add_right_comm id 1 step

/-- The trees of a tier are relabeled part by part. -/
def Parser.Tier.Relabels (tier : Parser.Tier) : Prop :=
  ∀ r left operator right,
    (tier.node left operator right).relabel r =
      tier.node (left.relabel r) (r.token operator) (right.relabel r)

theorem tiers_relabel : ∀ tier ∈ Parser.tiers, tier.Relabels := by
  simp only [Parser.tiers, List.forall_mem_cons]
  refine ⟨?_, ?_, ?_, ?_, ?_, ?_, fun _ h => absurd h List.not_mem_nil⟩ <;>
    exact fun _ _ _ _ => rfl

theorem Stmt.relabel_forLoop (r : Relabeling) (first : Option Stmt) (condition step : Option Expr)
    (body : Stmt) :
    (Stmt.forLoop first condition step body).relabel r =
      .forLoop (first.map (Stmt.relabel r)) (condition.map (Expr.relabel r))
        (step.map (Expr.relabel r)) (body.relabel r) := by
  cases first <;> cases condition <;> cases step <;> rfl

end Lox
