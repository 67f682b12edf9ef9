import Lox.Proofs.Resolution.Walk
import Lox.Proofs.Syntax.Naming

/-!
# Where the resolver binds occurrences

A walk keeps a list of scopes. `Stmt.Bound` says what a walk without errors leaves behind, and without
mention of the walk: each occurrence has the distance to the first of the scopes around it that holds
its name, and where it is a read, the name is defined there. How the scopes change from statement to
statement is a function of the statements alone (`Stmt.after`), and the same function describes what
a run has put into its frames.
-/

namespace Lox

namespace Resolution

/-! ## Scopes around a statement -/

/-- The scopes with a name declared in the innermost one. -/
def declaring (name : String) : List Scope → List Scope
  | [] => []
  | scope :: outer => scope.insert name false :: outer

/-- The scopes with a name ready to be read in the innermost one. -/
def defining (name : String) : List Scope → List Scope
  | [] => []
  | scope :: outer => scope.insert name true :: outer

/-- The scopes with a name declared and defined in the innermost one. -/
def introducing (scopes : List Scope) (name : Token) : List Scope :=
  defining name.lexeme (declaring name.lexeme scopes)

/-- All names are defined. -/
def Settled (scopes : List Scope) : Prop := ∀ scope ∈ scopes, ∀ name, scope.find? name ≠ some false

/-- All names are defined but for some of the innermost scope, and not the receiver among them. -/
structure Steady (scopes : List Scope) : Prop where
  outer : Settled scopes.tail
  receiver : ∀ scope ∈ scopes.head?, scope.find? receiverName ≠ some false

theorem Settled.steady {scopes : List Scope} (h : Settled scopes) : Steady scopes :=
  ⟨fun scope hscope => h scope (List.mem_of_mem_tail hscope),
    fun scope hscope => h scope (List.mem_of_mem_head? hscope) _⟩

theorem Settled.cons {scopes : List Scope} {scope : Scope} (h : Settled scopes)
    (hscope : ∀ name, scope.find? name ≠ some false) : Settled (scope :: scopes) :=
  List.forall_mem_cons.mpr ⟨hscope, h⟩

/-- A name that waits for its initializer does not disturb. -/
theorem Settled.declaring {scopes : List Scope} (h : Settled scopes) {name : Token}
    (hname : name.IsFree) : Steady (declaring name.lexeme scopes) := by
  cases scopes with
  | nil => exact h.steady
  | cons scope outer =>
    refine ⟨(List.forall_mem_cons.mp h).2, ?_⟩
    intro scope' hscope'
    cases hscope'
    rw [Bindings.find?_insert_of_ne _ _ hname]
    exact (List.forall_mem_cons.mp h).1 _

theorem Settled.introducing {scopes : List Scope} (h : Settled scopes) (name : Token) :
    Settled (introducing scopes name) := by
  cases scopes with
  | nil => exact h
  | cons scope outer =>
    refine .cons (List.forall_mem_cons.mp h).2 ?_
    intro other
    rw [Bindings.find?_insert]
    split
    · nofun
    next hne =>
    rw [Bindings.find?_insert_of_ne _ _ hne]
    exact (List.forall_mem_cons.mp h).1 other

theorem Settled.parameters (params : List Token) {scopes : List Scope} (h : Settled scopes) :
    Settled (params.foldl Resolution.introducing scopes) := by
  induction params generalizing scopes with
  | nil => exact h
  | cons param more ih => exact ih (h.introducing param)

end Resolution

/-! ## Bound occurrences -/

open Resolution

/-- What is recorded of the occurrences with smaller numbers than the next. -/
structure Record where
  distance? : OccurrenceId → Option Nat
  nextId : OccurrenceId

/-- The record has the distance from an occurrence to the first scope that holds its name; what reads
the name finds it defined there. -/
structure Occurrence.Bound (record : Record) (scopes : List Scope) (o : Occurrence) : Prop where
  numbered : o.id < record.nextId
  recorded : record.distance? o.id = scopes.findIdx? (·.contains o.token.lexeme)
  ready : o.role ≠ .assigned → ∀ d, record.distance? o.id = some d →
    ∃ scope, scopes[d]? = some scope ∧ scope.find? o.token.lexeme = some true
  spelled : o.role = .receiver ↔ o.token.lexeme = receiverName

/-- All occurrences in an expression are bound to the same scopes. -/
def Expr.Bound (record : Record) (scopes : List Scope) (e : Expr) : Prop :=
  ∀ o ∈ e.occurrences, o.Bound record scopes

/-- All occurrences in an expression that may be missing are bound to the same scopes. -/
def Expr.BoundIfAny (record : Record) (scopes : List Scope) (value : Option Expr) : Prop :=
  ∀ o ∈ Expr.occurrencesOf value, o.Bound record scopes

/-- The scopes behind a statement. -/
def Stmt.after (scopes : List Scope) (t : Stmt) : List Scope :=
  t.declared?.elim scopes (introducing scopes)

mutual

/-- Everything in a statement is bound, and it is well named. -/
def Stmt.Bound (record : Record) (scopes : List Scope) : Stmt → Prop
  | .expression value | .print value => value.Bound record scopes
  | .varDecl name initializer =>
    name.IsFree ∧ Expr.BoundIfAny record (declaring name.lexeme scopes) initializer
  | .block body => Stmt.BoundAll record (.empty :: scopes) body
  | .ifThen condition thenBranch =>
    condition.Bound record scopes ∧
      thenBranch.declared? = none ∧ thenBranch.Bound record scopes
  | .ifElse condition thenBranch elseBranch =>
    condition.Bound record scopes ∧
      (thenBranch.declared? = none ∧ thenBranch.Bound record scopes) ∧
      elseBranch.declared? = none ∧ elseBranch.Bound record scopes
  | .whileLoop condition body =>
    condition.Bound record scopes ∧ body.declared? = none ∧ body.Bound record scopes
  | .funDecl declaration =>
    declaration.name.IsFree ∧ declaration.Bound record (introducing scopes declaration.name)
  | .returns _ value => Expr.BoundIfAny record scopes value
  | .classDecl name methods =>
    name.IsFree ∧ FunctionDecl.BoundAll record (classScope :: introducing scopes name) methods

/-- Everything in a function is bound, whose parameters and body share a scope. -/
def FunctionDecl.Bound (record : Record) (scopes : List Scope) : FunctionDecl → Prop
  | ⟨_, params, body⟩ =>
    (∀ param ∈ params, param.IsFree) ∧
      Stmt.BoundAll record (params.foldl introducing (.empty :: scopes)) body

/-- Everything in statements is bound, each behind the ones before. -/
def Stmt.BoundAll (record : Record) : List Scope → List Stmt → Prop
  | _, [] => True
  | scopes, first :: more =>
    first.Bound record scopes ∧ Stmt.BoundAll record (first.after scopes) more

def FunctionDecl.BoundAll (record : Record) (scopes : List Scope) : List FunctionDecl → Prop
  | [] => True
  | first :: more => first.Bound record scopes ∧ FunctionDecl.BoundAll record scopes more

end

/-! ## Larger records -/

/-- A record with more occurrences, where nothing has changed for the old ones. -/
structure Record.Extends (record record' : Record) : Prop where
  nextId_le : record.nextId ≤ record'.nextId
  distance?_eq : ∀ id < record.nextId, record'.distance? id = record.distance? id

section

variable {record record' : Record}

theorem Occurrence.Bound.mono (hrecord : record.Extends record') {scopes : List Scope}
    {o : Occurrence} (h : o.Bound record scopes) : o.Bound record' scopes := by
  have same := hrecord.distance?_eq o.id h.numbered
  exact ⟨Nat.lt_of_lt_of_le h.numbered hrecord.nextId_le, same.trans h.recorded,
    fun hrole d hd => h.ready hrole d (same.symm.trans hd), h.spelled⟩

/-- What is assigned to is not the receiver. -/
theorem Occurrence.Bound.free {scopes : List Scope} {o : Occurrence} (h : o.Bound record scopes)
    (hrole : o.role = .assigned) : o.token.IsFree := by
  intro hlexeme
  have receiver := h.spelled.mpr hlexeme
  rw [hrole] at receiver
  nomatch receiver

theorem Expr.Bound.mono (hrecord : record.Extends record') {scopes : List Scope} {e : Expr}
    (h : e.Bound record scopes) : e.Bound record' scopes :=
  fun o ho => (h o ho).mono hrecord

theorem Expr.BoundIfAny.mono (hrecord : record.Extends record') {scopes : List Scope}
    {value : Option Expr} (h : Expr.BoundIfAny record scopes value) :
    Expr.BoundIfAny record' scopes value :=
  fun o ho => (h o ho).mono hrecord

mutual

theorem Stmt.Bound.mono (hrecord : record.Extends record') : ∀ {t : Stmt} {scopes : List Scope},
    t.Bound record scopes → t.Bound record' scopes
  | .expression _, _, h => Expr.Bound.mono hrecord h
  | .print _, _, h => Expr.Bound.mono hrecord h
  | .varDecl _ _, _, h => ⟨h.1, Expr.BoundIfAny.mono hrecord h.2⟩
  | .block _, _, h => Stmt.BoundAll.mono hrecord h
  | .ifThen _ _, _, h => ⟨h.1.mono hrecord, h.2.1, Stmt.Bound.mono hrecord h.2.2⟩
  | .ifElse _ _ _, _, h =>
    ⟨h.1.mono hrecord, ⟨h.2.1.1, Stmt.Bound.mono hrecord h.2.1.2⟩, h.2.2.1,
      Stmt.Bound.mono hrecord h.2.2.2⟩
  | .whileLoop _ _, _, h => ⟨h.1.mono hrecord, h.2.1, Stmt.Bound.mono hrecord h.2.2⟩
  | .funDecl _, _, h => ⟨h.1, FunctionDecl.Bound.mono hrecord h.2⟩
  | .returns _ _, _, h => Expr.BoundIfAny.mono hrecord h
  | .classDecl _ _, _, h => ⟨h.1, FunctionDecl.BoundAll.mono hrecord h.2⟩

theorem FunctionDecl.Bound.mono (hrecord : record.Extends record') :
    ∀ {f : FunctionDecl} {scopes : List Scope}, f.Bound record scopes → f.Bound record' scopes
  | ⟨_, _, _⟩, _, h => ⟨h.1, Stmt.BoundAll.mono hrecord h.2⟩

theorem Stmt.BoundAll.mono (hrecord : record.Extends record') :
    ∀ {body : List Stmt} {scopes : List Scope}, Stmt.BoundAll record scopes body →
      Stmt.BoundAll record' scopes body
  | [], _, _ => trivial
  | _ :: _, _, h => ⟨Stmt.Bound.mono hrecord h.1, Stmt.BoundAll.mono hrecord h.2⟩

theorem FunctionDecl.BoundAll.mono (hrecord : record.Extends record') :
    ∀ {fs : List FunctionDecl} {scopes : List Scope}, FunctionDecl.BoundAll record scopes fs →
      FunctionDecl.BoundAll record' scopes fs
  | [], _, _ => trivial
  | _ :: _, _, h => ⟨FunctionDecl.Bound.mono hrecord h.1, FunctionDecl.BoundAll.mono hrecord h.2⟩

end

end

/-! ## What a walk without errors records -/

namespace Resolution

/-- A walk over something with these occurrences. -/
structure Covers (os : List Occurrence) (f : Walk → Walk) : Prop where
  behind : ∀ walk earlier, f (walk.behind earlier) = (f walk).behind earlier
  adds : ∀ walk, Walk.Adds os walk (f walk)

/-- The record is what a walk from one place to another, without errors up to there, has found of the
occurrences between them. -/
structure Kept (record : Record) (os : List Occurrence) (walk walk' : Walk) : Prop where
  clean : walk'.errors = []
  nodup : (os.map (·.id)).Nodup
  fresh : ∀ o ∈ os, ∀ d, (o.id, d) ∉ walk.distances
  found : ∀ o ∈ os, ∀ d, record.distance? o.id = some d ↔ (o.id, d) ∈ walk'.distances
  numbered : ∀ o ∈ os, o.id < record.nextId
  spelled : ∀ o ∈ os, o.role = .receiver ↔ o.token.lexeme = receiverName

theorem Covers.split {os : List Occurrence} {f : Walk → Walk} (h : Covers os f) (walk : Walk) :
    f walk = (f ⟨walk.scopes, [], []⟩).behind walk := by
  have := h.behind ⟨walk.scopes, [], []⟩ walk
  rwa [Walk.behind, List.nil_append, List.append_nil] at this

/-- No error is ever taken back. -/
theorem Covers.clean {os : List Occurrence} {f : Walk → Walk} (h : Covers os f) {walk : Walk}
    (hclean : (f walk).errors = []) : walk.errors = [] := by
  rw [h.split walk] at hclean
  exact (List.append_eq_nil_iff.mp hclean).1

theorem Covers.mem {os : List Occurrence} {f : Walk → Walk} (h : Covers os f) {walk : Walk}
    {p : OccurrenceId × Nat} (hp : p ∈ walk.distances) : p ∈ (f walk).distances := by
  rw [h.split walk]
  exact List.mem_append_right _ hp

namespace Kept

variable {record : Record} {os os' : List Occurrence} {walk walk₁ walk₂ : Walk} {f : Walk → Walk}

theorem perm (h : Kept record os walk walk₁) (hos : os.Perm os') : Kept record os' walk walk₁ where
  clean := h.clean
  nodup := (hos.map _).nodup_iff.mp h.nodup
  fresh o ho := h.fresh o (hos.mem_iff.mpr ho)
  found o ho := h.found o (hos.mem_iff.mpr ho)
  numbered o ho := h.numbered o (hos.mem_iff.mpr ho)
  spelled o ho := h.spelled o (hos.mem_iff.mpr ho)

/-- What was found of the first part is what is recorded of it, whatever comes behind. -/
theorem first (hf : Covers os' f) (h : Kept record (os ++ os') walk (f walk₁)) :
    Kept record os walk walk₁ where
  clean := hf.clean h.clean
  nodup := (List.nodup_append.mp (List.map_append ▸ h.nodup)).1
  fresh o ho := h.fresh o (List.mem_append_left _ ho)
  found := by
    intro o ho d
    rw [h.found o (List.mem_append_left _ ho)]
    refine ⟨fun hd => ?_, hf.mem⟩
    rcases (hf.adds walk₁).mem hd with hd | hd
    · exact hd
    · have disjoint := (List.nodup_append.mp (List.map_append ▸ h.nodup)).2.2
      exact absurd rfl (disjoint _ (List.mem_map_of_mem ho) _ hd)
  numbered o ho := h.numbered o (List.mem_append_left _ ho)
  spelled o ho := h.spelled o (List.mem_append_left _ ho)

/-- What is found of the second part is what is recorded of it, whatever came before. -/
theorem second (hf : Covers os f) (h : Kept record (os ++ os') walk walk₂) :
    Kept record os' (f walk) walk₂ where
  clean := h.clean
  nodup := (List.nodup_append.mp (List.map_append ▸ h.nodup)).2.1
  fresh := by
    intro o ho d hd
    rcases (hf.adds walk).mem hd with hd | hd
    · exact h.fresh o (List.mem_append_right _ ho) d hd
    · have disjoint := (List.nodup_append.mp (List.map_append ▸ h.nodup)).2.2
      exact absurd rfl (disjoint _ hd _ (List.mem_map_of_mem ho))
  found o ho := h.found o (List.mem_append_right _ ho)
  numbered o ho := h.numbered o (List.mem_append_right _ ho)
  spelled o ho := h.spelled o (List.mem_append_right _ ho)

/-- What changes only scopes at the end does not matter. -/
theorem before (hf : Covers [] f) (h : Kept record os walk (f walk₁)) :
    Kept record os walk walk₁ :=
  first hf (os.append_nil.symm ▸ h)

/-- What changes only scopes at the start does not matter. -/
theorem after (hf : Covers [] f) (h : Kept record os walk walk₂) : Kept record os (f walk) walk₂ :=
  second hf h

end Kept

end Resolution

end Lox
