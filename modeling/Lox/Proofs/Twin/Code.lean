import Lox.Proofs.Machine.Scoping
import Lox.Proofs.Resolution.Bound
import Mathlib.Logic.Equiv.Defs
import Mathlib.Data.List.Forall2

/-!
# Twin code

Two pieces of code are twins if they do the same wherever they are run: they have the same shape, their
occurrences have the same distances, and the names that they look up lead to the same places. Identities
of occurrences may differ, and lines as far as the twins allow. A scope may call its names differently
in the twin (`Renaming`), and then all occurrences that are bound to it do. What is left to the globals
keeps its name.
-/

namespace Lox

/-! ## Renamings -/

/-- How the names of a scope are called in the twin. The name of the receiver stays. -/
structure Renaming where
  names : Equiv.Perm String
  receiver : names receiverName = receiverName

namespace Renaming

/-- All names stay. -/
def same : Renaming := ⟨Equiv.refl String, rfl⟩

@[simp] theorem names_same (name : String) : same.names name = name := rfl

/-- How the names of the innermost scope are called; those outside of all scopes stay. -/
def innermost (scopes : List Renaming) : Renaming := scopes.headD same

end Renaming

/-! ## Ties -/

/-- What is known of two runs of twins: what is recorded of the occurrences on either side, which lines
belong together, what only the left one has printed before, and what is promised of the left one where
it is watched. -/
structure Tie where
  left : Record
  right : Record
  line : Nat → Nat → Prop
  before : String
  promise : Code → Machine → Prop

namespace Tie

/-- Where the promise holds, what is read is there. -/
def Guards (tie : Tie) : Prop :=
  ∀ e m, tie.promise (.expression e) m → ∀ o ∈ (Code.expression e).occurrence?,
    o.role ≠ .assigned → ∀ d, m.distances[o.id]? = some d →
      ∃ frame, m.frames.ancestor? d m.current = some frame ∧
        (m.frames.local? frame o.token.lexeme).isSome

/-- Tokens that differ in their lines alone. -/
structure Alike (tie : Tie) (token token' : Token) : Prop where
  kind : token'.kind = token.kind
  lexeme : token'.lexeme = token.lexeme
  line : tie.line token.line token'.line

/-- The name that is declared in a scope is called as the scope says. -/
structure Declares (ρ : Renaming) (name name' : Token) : Prop where
  lexeme : name'.lexeme = ρ.names name.lexeme
  free : name.IsFree

/-- Occurrences with the same distance, whose name is called as the scope says to which it leads. If
another name is read, the promise says that it is there. -/
structure Occurs (tie : Tie) (scopes : List Renaming) (o o' : Occurrence) : Prop where
  left : o.id < tie.left.nextId
  right : o'.id < tie.right.nextId
  distance : tie.right.distance? o'.id = tie.left.distance? o.id
  line : tie.line o.token.line o'.token.line
  named : tie.left.distance? o.id = none → o'.token.lexeme = o.token.lexeme
  renamed : ∀ d, tie.left.distance? o.id = some d →
    ∃ ρ, scopes[d]? = some ρ ∧ o'.token.lexeme = ρ.names o.token.lexeme
  free : o.role = .assigned → o.token.IsFree
  there : o.role ≠ .assigned → o'.token.lexeme = o.token.lexeme ∨ tie.Guards

/-- The tie of more code. -/
structure Extends (tie tie' : Tie) : Prop where
  left : tie.left.Extends tie'.left
  right : tie.right.Extends tie'.right
  line : ∀ n n', tie.line n n' → tie'.line n n'
  guards : tie.Guards → tie'.Guards

end Tie

/-! ## Twins -/

mutual

/-- Twin expressions inside of scopes. -/
inductive Expr.Twin (tie : Tie) (scopes : List Renaming) : Expr → Expr → Prop
  | literal {value : Literal} : Twin tie scopes (.literal value) (.literal value)
  | grouping {inner inner' : Expr} : inner.Twin tie scopes inner' →
      Twin tie scopes (.grouping inner) (.grouping inner')
  | unary {operator operator' : Token} {operand operand' : Expr} : tie.Alike operator operator' →
      operand.Twin tie scopes operand' →
      Twin tie scopes (.unary operator operand) (.unary operator' operand')
  | binary {left left' : Expr} {operator operator' : Token} {right right' : Expr} :
      left.Twin tie scopes left' → tie.Alike operator operator' → right.Twin tie scopes right' →
      Twin tie scopes (.binary left operator right) (.binary left' operator' right')
  | logical {left left' : Expr} {operator operator' : Token} {right right' : Expr} :
      left.Twin tie scopes left' → tie.Alike operator operator' → right.Twin tie scopes right' →
      Twin tie scopes (.logical left operator right) (.logical left' operator' right')
  | var {id id' : OccurrenceId} {name name' : Token} :
      tie.Occurs scopes ⟨.read, id, name⟩ ⟨.read, id', name'⟩ →
      Twin tie scopes (.var id name) (.var id' name')
  | this {id id' : OccurrenceId} {name name' : Token} :
      tie.Occurs scopes ⟨.receiver, id, name⟩ ⟨.receiver, id', name'⟩ →
      Twin tie scopes (.this id name) (.this id' name')
  | assign {id id' : OccurrenceId} {name name' : Token} {value value' : Expr} :
      tie.Occurs scopes ⟨.assigned, id, name⟩ ⟨.assigned, id', name'⟩ →
      value.Twin tie scopes value' →
      Twin tie scopes (.assign id name value) (.assign id' name' value')
  | call {callee callee' : Expr} {paren paren' : Token} {arguments arguments' : List Expr} :
      callee.Twin tie scopes callee' → tie.Alike paren paren' →
      Expr.TwinAll tie scopes arguments arguments' →
      Twin tie scopes (.call callee paren arguments) (.call callee' paren' arguments')
  | get {object object' : Expr} {name name' : Token} : object.Twin tie scopes object' →
      tie.Alike name name' → Twin tie scopes (.get object name) (.get object' name')
  | set {object object' : Expr} {name name' : Token} {value value' : Expr} :
      object.Twin tie scopes object' → tie.Alike name name' → value.Twin tie scopes value' →
      Twin tie scopes (.set object name value) (.set object' name' value')

/-- Twin expressions one by one. -/
inductive Expr.TwinAll (tie : Tie) (scopes : List Renaming) : List Expr → List Expr → Prop
  | nil : TwinAll tie scopes [] []
  | cons {first first' : Expr} {more more' : List Expr} : first.Twin tie scopes first' →
      Expr.TwinAll tie scopes more more' → TwinAll tie scopes (first :: more) (first' :: more')

end

open Renaming

mutual

/-- Twin statements inside of scopes. Each scope inside of them has names of its own. -/
inductive Stmt.Twin (tie : Tie) : List Renaming → Stmt → Stmt → Prop
  | expression {scopes : List Renaming} {value value' : Expr} : value.Twin tie scopes value' →
      Stmt.Twin tie scopes (.expression value) (.expression value')
  | print {scopes : List Renaming} {value value' : Expr} : value.Twin tie scopes value' →
      Stmt.Twin tie scopes (.print value) (.print value')
  | varDecl {scopes : List Renaming} {name name' : Token} {value value' : Option Expr} :
      Tie.Declares (innermost scopes) name name' → Option.Rel (Expr.Twin tie scopes) value value' →
      Stmt.Twin tie scopes (.varDecl name value) (.varDecl name' value')
  | block {scopes : List Renaming} {body body' : List Stmt} (ρ : Renaming) :
      Stmt.TwinAll tie (ρ :: scopes) body body' → Stmt.Twin tie scopes (.block body) (.block body')
  | ifThen {scopes : List Renaming} {condition condition' : Expr} {branch branch' : Stmt} :
      condition.Twin tie scopes condition' → branch.Twin tie scopes branch' →
      Stmt.Twin tie scopes (.ifThen condition branch) (.ifThen condition' branch')
  | ifElse {scopes : List Renaming} {condition condition' : Expr}
      {first first' second second' : Stmt} : condition.Twin tie scopes condition' →
      first.Twin tie scopes first' → second.Twin tie scopes second' →
      Stmt.Twin tie scopes (.ifElse condition first second) (.ifElse condition' first' second')
  | whileLoop {scopes : List Renaming} {condition condition' : Expr} {body body' : Stmt} :
      condition.Twin tie scopes condition' → body.Twin tie scopes body' →
      Stmt.Twin tie scopes (.whileLoop condition body) (.whileLoop condition' body')
  | funDecl {scopes : List Renaming} {f f' : FunctionDecl} :
      Tie.Declares (innermost scopes) f.name f'.name → f.Twin tie scopes f' →
      Stmt.Twin tie scopes (.funDecl f) (.funDecl f')
  | returns {scopes : List Renaming} {keyword keyword' : Token} {value value' : Option Expr} :
      Option.Rel (Expr.Twin tie scopes) value value' →
      Stmt.Twin tie scopes (.returns keyword value) (.returns keyword' value')
  | classDecl {scopes : List Renaming} {name name' : Token} {methods methods' : List FunctionDecl} :
      Tie.Declares (innermost scopes) name name' → name'.lexeme = name.lexeme →
      FunctionDecl.TwinAll tie (same :: scopes) methods methods' →
      Stmt.Twin tie scopes (.classDecl name methods) (.classDecl name' methods')

/-- Twin functions inside of scopes; they have the same name. -/
inductive FunctionDecl.Twin (tie : Tie) : List Renaming → FunctionDecl → FunctionDecl → Prop
  | intro {scopes : List Renaming} {name name' : Token} {params params' : List Token}
      {body body' : List Stmt} (ρ : Renaming) : tie.Alike name name' →
      List.Forall₂ (Tie.Declares ρ) params params' → Stmt.TwinAll tie (ρ :: scopes) body body' →
      FunctionDecl.Twin tie scopes ⟨name, params, body⟩ ⟨name', params', body'⟩

/-- Twin statements one by one. -/
inductive Stmt.TwinAll (tie : Tie) : List Renaming → List Stmt → List Stmt → Prop
  | nil {scopes : List Renaming} : Stmt.TwinAll tie scopes [] []
  | cons {scopes : List Renaming} {first first' : Stmt} {more more' : List Stmt} :
      first.Twin tie scopes first' → Stmt.TwinAll tie scopes more more' →
      Stmt.TwinAll tie scopes (first :: more) (first' :: more')

/-- Twin functions one by one. -/
inductive FunctionDecl.TwinAll (tie : Tie) :
    List Renaming → List FunctionDecl → List FunctionDecl → Prop
  | nil {scopes : List Renaming} : FunctionDecl.TwinAll tie scopes [] []
  | cons {scopes : List Renaming} {first first' : FunctionDecl} {more more' : List FunctionDecl} :
      first.Twin tie scopes first' → FunctionDecl.TwinAll tie scopes more more' →
      FunctionDecl.TwinAll tie scopes (first :: more) (first' :: more')

end

/-! ## More code -/

section

variable {tie tie' : Tie}

theorem Tie.Extends.refl (tie : Tie) : tie.Extends tie :=
  ⟨⟨Nat.le_refl _, fun _ _ => rfl⟩, ⟨Nat.le_refl _, fun _ _ => rfl⟩, fun _ _ h => h, id⟩

theorem Tie.Alike.mono (h : tie.Extends tie') {token token' : Token} (ht : tie.Alike token token') :
    tie'.Alike token token' :=
  ⟨ht.kind, ht.lexeme, h.line _ _ ht.line⟩

theorem Tie.Occurs.mono (h : tie.Extends tie') {scopes : List Renaming} {o o' : Occurrence} (ho : tie.Occurs scopes o o') :
    tie'.Occurs scopes o o' := by
  have left := h.left.distance?_eq o.id ho.left
  have right := h.right.distance?_eq o'.id ho.right
  refine ⟨Nat.lt_of_lt_of_le ho.left h.left.nextId_le, Nat.lt_of_lt_of_le ho.right h.right.nextId_le,
    ?_, h.line _ _ ho.line, ?_, ?_, ho.free, ?_⟩
  · rw [right, left, ho.distance]
  · rw [left]
    exact ho.named
  · rw [left]
    exact ho.renamed
  · intro hrole
    exact (ho.there hrole).imp_right h.guards

mutual

theorem Expr.Twin.mono (h : tie.Extends tie') {scopes : List Renaming} {e e' : Expr} :
    e.Twin tie scopes e' → e.Twin tie' scopes e'
  | .literal => .literal
  | .grouping hinner => .grouping (Expr.Twin.mono h hinner)
  | .unary hoperator hoperand => .unary (hoperator.mono h) (Expr.Twin.mono h hoperand)
  | .binary hleft hoperator hright =>
    .binary (Expr.Twin.mono h hleft) (hoperator.mono h) (Expr.Twin.mono h hright)
  | .logical hleft hoperator hright =>
    .logical (Expr.Twin.mono h hleft) (hoperator.mono h) (Expr.Twin.mono h hright)
  | .var ho => .var (ho.mono h)
  | .this ho => .this (ho.mono h)
  | .assign ho hvalue => .assign (ho.mono h) (Expr.Twin.mono h hvalue)
  | .call hcallee hparen harguments =>
    .call (Expr.Twin.mono h hcallee) (hparen.mono h) (Expr.TwinAll.mono h harguments)
  | .get hobject hname => .get (Expr.Twin.mono h hobject) (hname.mono h)
  | .set hobject hname hvalue =>
    .set (Expr.Twin.mono h hobject) (hname.mono h) (Expr.Twin.mono h hvalue)

theorem Expr.TwinAll.mono (h : tie.Extends tie') {scopes : List Renaming} {es es' : List Expr} :
    Expr.TwinAll tie scopes es es' → Expr.TwinAll tie' scopes es es'
  | .nil => .nil
  | .cons hfirst hmore => .cons (Expr.Twin.mono h hfirst) (Expr.TwinAll.mono h hmore)

end

theorem Expr.Twin.optional_mono (h : tie.Extends tie') {scopes : List Renaming} {value value' : Option Expr} :
    Option.Rel (Expr.Twin tie scopes) value value' → Option.Rel (Expr.Twin tie' scopes) value value'
  | .none => .none
  | .some hvalue => .some (hvalue.mono h)

mutual

theorem Stmt.Twin.mono (h : tie.Extends tie') {scopes : List Renaming} {t t' : Stmt} :
    t.Twin tie scopes t' → t.Twin tie' scopes t'
  | .expression hvalue => .expression (hvalue.mono h)
  | .print hvalue => .print (hvalue.mono h)
  | .varDecl hname hvalue => .varDecl hname (Expr.Twin.optional_mono h hvalue)
  | .block ρ hbody => .block ρ (Stmt.TwinAll.mono h hbody)
  | .ifThen hcondition hbranch => .ifThen (hcondition.mono h) (Stmt.Twin.mono h hbranch)
  | .ifElse hcondition hfirst hsecond =>
    .ifElse (hcondition.mono h) (Stmt.Twin.mono h hfirst) (Stmt.Twin.mono h hsecond)
  | .whileLoop hcondition hbody => .whileLoop (hcondition.mono h) (Stmt.Twin.mono h hbody)
  | .funDecl hname hf => .funDecl hname (FunctionDecl.Twin.mono h hf)
  | .returns hvalue => .returns (Expr.Twin.optional_mono h hvalue)
  | .classDecl hname hlexeme hmethods =>
    .classDecl hname hlexeme (FunctionDecl.TwinAll.mono h hmethods)

/-- Twins stay twins when there is more code. -/
theorem FunctionDecl.Twin.mono (h : tie.Extends tie') {scopes : List Renaming} {f f' : FunctionDecl} :
    f.Twin tie scopes f' → f.Twin tie' scopes f'
  | .intro ρ hname hparams hbody => .intro ρ (hname.mono h) hparams (Stmt.TwinAll.mono h hbody)

theorem Stmt.TwinAll.mono (h : tie.Extends tie') {scopes : List Renaming} {body body' : List Stmt} :
    Stmt.TwinAll tie scopes body body' → Stmt.TwinAll tie' scopes body body'
  | .nil => .nil
  | .cons hfirst hmore => .cons (Stmt.Twin.mono h hfirst) (Stmt.TwinAll.mono h hmore)

theorem FunctionDecl.TwinAll.mono (h : tie.Extends tie') {scopes : List Renaming} {fs fs' : List FunctionDecl} :
    FunctionDecl.TwinAll tie scopes fs fs' → FunctionDecl.TwinAll tie' scopes fs fs'
  | .nil => .nil
  | .cons hfirst hmore => .cons (FunctionDecl.Twin.mono h hfirst) (FunctionDecl.TwinAll.mono h hmore)

end

end

end Lox
