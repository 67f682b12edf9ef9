import Lox.Proofs.Resolution.Lexical
import Lox.Proofs.Resolution.Soundness

/-!
# What is bound is what is denoted

The open scopes of a walk declare the names that the landmarks behind it leave (`Names`). A walk over a
part of a program *tells* the landmarks of that part: it goes on with the scopes that they leave, and
it binds each use among them to the distance of the innermost open scope that has the name (`Tells`).
In an expression no scope is opened or closed, so the order in which its uses come does not matter
(`Finds`).
-/

namespace Lox.Resolution

/-! ## Names of scopes -/

/-- The scopes declare these names. -/
def Names (scopes : List Scope) (names : List (List String)) : Prop :=
  List.Forall₂ (fun scope names => ∀ name, scope.contains name = true ↔ name ∈ names) scopes names

theorem contains_empty {name : String} : (Bindings.empty : Scope).contains name = false := rfl

theorem contains_insert {scope : Scope} {name other : String} {ready : Bool} :
    (scope.insert name ready).contains other = true ↔ other = name ∨ scope.contains other = true := by
  rw [Bindings.contains, Bindings.find?_insert, Bindings.contains]
  split
  · next same => simp [same]
  · next differ => simp [Ne.symm differ]

section

variable {scopes : List Scope} {names : List (List String)} {name : String}

theorem Names.openDistance (h : Names scopes names) :
    scopes.findIdx? (·.contains name) = openDistance names name := by
  unfold Lox.openDistance
  induction h with
  | nil => rfl
  | @cons scope inner _ _ hscope _ ih =>
    have same : scope.contains name = inner.contains name :=
      Bool.eq_iff_iff.mpr ((hscope name).trans List.contains_iff_mem.symm)
    rw [List.findIdx?_cons, List.findIdx?_cons, ih, same]

theorem Names.declaring (h : Names scopes names) :
    Names (declaring name scopes) (Landmark.apply names (.declares name)) := by
  cases h with
  | nil => exact .nil
  | cons hscope houter =>
    exact .cons (fun other => by rw [contains_insert, hscope, List.mem_cons]) houter

theorem Names.tail (h : Names scopes names) : Names scopes.tail names.tail := by
  cases h with
  | nil => exact .nil
  | cons _ houter => exact houter

/-- To define what is declared leaves the names as they are. -/
theorem Names.defining (h : Names scopes names) (hname : ∀ inner ∈ names.head?, name ∈ inner) :
    Names (defining name scopes) names := by
  cases h with
  | nil => exact .nil
  | @cons _ inner _ _ hscope houter =>
    refine .cons (fun other => ?_) houter
    rw [contains_insert, hscope]
    exact or_iff_right_of_imp fun same => same ▸ hname inner rfl

end

/-! ## Expressions -/

/-- A walk opens and closes no scope, and it binds the occurrences in the scopes that it came with. -/
structure Finds (os : List Occurrence) (f : Walk → Walk) : Prop where
  clean : ∀ {walk}, (f walk).errors = [] → walk.errors = []
  scopes : ∀ walk, (f walk).scopes = walk.scopes
  bound : ∀ {walk}, (f walk).errors = [] → ∀ id d, (id, d) ∈ (f walk).distances ↔
    (id, d) ∈ walk.distances ∨ ∃ o ∈ os, o.id = id ∧ walk.distance? o.token.lexeme = some d

namespace Finds

variable {os os' : List Occurrence} {f g : Walk → Walk}

theorem nothing : Finds [] id := ⟨id, fun _ => rfl, by simp⟩

theorem bind (role : Occurrence.Role) (id : OccurrenceId) (name : Token) :
    Finds [⟨role, id, name⟩] (·.bind id name) where
  clean := (bind_covers role id name).clean
  scopes walk := walk.scopes_bind id name
  bound {walk} _ id' d := by
    unfold Walk.bind
    cases hd : walk.distance? name.lexeme with
    | none => simp [hd]
    | some d' => simp [hd, or_comm, eq_comm]

/-- One walk and then another, over occurrences that come in any order. -/
theorem seq {all : List Occurrence} (hf : Finds os f) (hg : Finds os' g)
    (hall : ∀ o, o ∈ all ↔ o ∈ os ∨ o ∈ os') : Finds all (fun walk => g (f walk)) where
  clean h := hf.clean (hg.clean h)
  scopes walk := by rw [hg.scopes, hf.scopes]
  bound {walk} h id d := by
    rw [hg.bound h, hf.bound (hg.clean h), or_assoc]
    -- the second walk binds in the scopes that the first one came with
    simp only [Walk.distance?, hf.scopes, hall, or_and_right, exists_or]

end Finds

mutual

/-- A walk over an expression binds its occurrences. -/
theorem expression_finds (insideClass : Bool) : ∀ (value : Expr),
    Finds value.occurrences (expression insideClass value)
  | .literal _ => .nothing
  | .grouping inner => expression_finds insideClass inner
  | .unary _ operand => expression_finds insideClass operand
  | .binary left _ right =>
    (expression_finds insideClass left).seq (expression_finds insideClass right)
      fun _ => List.mem_append
  | .logical left _ right =>
    (expression_finds insideClass left).seq (expression_finds insideClass right)
      fun _ => List.mem_append
  | .var id name => by
    have hbind := Finds.bind .read id name
    refine ⟨(expression_covers insideClass (.var id name)).clean,
      expression_scopes insideClass (.var id name), fun {walk} h => ?_⟩
    rw [expression, Walk.read] at h ⊢
    cases hinit : walk.isInitializing name.lexeme with
    | true =>
      -- a variable that is being initialized is reported
      simp only [hinit, if_true] at h
      exact absurd (hbind.clean h) (by simp [Walk.report])
    | false =>
      simp only [hinit] at h
      exact hbind.bound h
  | .assign id name value =>
    (expression_finds insideClass value).seq (.bind .assigned id name)
      fun _ => by simp [Expr.occurrences, or_comm]
  | .call callee _ arguments =>
    (expression_finds insideClass callee).seq (expressions_finds insideClass arguments)
      fun _ => List.mem_append
  | .get object _ => expression_finds insideClass object
  | .set object _ value =>
    (expression_finds insideClass value).seq (expression_finds insideClass object)
      fun _ => List.mem_append.trans or_comm
  | .this id keyword => by
    cases insideClass with
    | true => exact .bind .receiver id keyword
    | false =>
      refine ⟨fun h => ?_, fun _ => rfl, fun h => ?_⟩ <;> simp [expression, Walk.report] at h

/-- A walk over expressions binds their occurrences. -/
theorem expressions_finds (insideClass : Bool) : ∀ (values : List Expr),
    Finds (Expr.occurrencesIn values) (expressions insideClass values)
  | [] => .nothing
  | first :: more =>
    (expression_finds insideClass first).seq (expressions_finds insideClass more)
      fun _ => List.mem_append

end

theorem optional_finds (insideClass : Bool) (value : Option Expr) :
    Finds (Expr.occurrencesOf value) (optional insideClass value) := by
  cases value with
  | none => exact .nothing
  | some value => exact expression_finds insideClass value

/-! ## Statements -/

/-- One of the uses among the landmarks has this identity, and where it stands, the scope at this
distance is the innermost one that has its name. -/
def Reaches (ms : List Landmark) (names : List (List String)) (id : OccurrenceId) (d : Nat) : Prop :=
  ∃ before o after, ms = before ++ .uses o :: after ∧ o.id = id ∧
    openDistance (openNames before names) o.token.lexeme = some d

section

variable {ms ms' : List Landmark} {names : List (List String)} {id : OccurrenceId} {d : Nat}

theorem reaches_nil : ¬Reaches [] names id d := by
  rintro ⟨before, o, after, h, -⟩
  simp at h

theorem reaches_cons {m : Landmark} : Reaches (m :: ms) names id d ↔
    (∃ o, m = .uses o ∧ o.id = id ∧ openDistance names o.token.lexeme = some d) ∨
      Reaches ms (Landmark.apply names m) id d := by
  constructor
  · rintro ⟨before, o, after, h, hid, hd⟩
    rcases List.cons_eq_append_iff.mp h with ⟨rfl, h⟩ | ⟨before, rfl, rfl⟩
    · injection h with h _
      exact .inl ⟨o, h, hid, hd⟩
    · exact .inr ⟨before, o, after, rfl, hid, hd⟩
  · rintro (⟨o, rfl, hid, hd⟩ | ⟨before, o, after, rfl, hid, hd⟩)
    · exact ⟨[], o, ms, rfl, hid, hd⟩
    · exact ⟨m :: before, o, after, rfl, hid, hd⟩

theorem reaches_append : Reaches (ms ++ ms') names id d ↔
    Reaches ms names id d ∨ Reaches ms' (openNames ms names) id d := by
  induction ms generalizing names with
  | nil => simp [reaches_nil]
  | cons m ms ih => rw [List.cons_append, reaches_cons, reaches_cons, ih, openNames_cons, or_assoc]

theorem openNames_uses (os : List Occurrence) : openNames (os.map .uses) names = names := by
  induction os with
  | nil => rfl
  | cons o os ih => exact ih

theorem reaches_uses {os : List Occurrence} : Reaches (os.map .uses) names id d ↔
    ∃ o ∈ os, o.id = id ∧ openDistance names o.token.lexeme = some d := by
  induction os with
  | nil => simp [reaches_nil]
  | cons o os ih => simp [reaches_cons, ih, Landmark.apply]

end

/-- A walk leaves the scopes whose names the landmarks leave, and it binds each use among them to the
scope that it reaches. -/
structure Tells (ms : List Landmark) (f : Walk → Walk) : Prop where
  clean : ∀ {walk}, (f walk).errors = [] → walk.errors = []
  names : ∀ {walk names}, (f walk).errors = [] → Names walk.scopes names →
    Names (f walk).scopes (openNames ms names)
  bound : ∀ {walk names}, (f walk).errors = [] → Names walk.scopes names → ∀ id d,
    (id, d) ∈ (f walk).distances ↔ (id, d) ∈ walk.distances ∨ Reaches ms names id d

namespace Tells

variable {ms ms' : List Landmark} {f g : Walk → Walk}

/-- A walk that binds nothing. -/
theorem silent (hclean : ∀ {walk}, (f walk).errors = [] → walk.errors = [])
    (hnames : ∀ {walk names}, (f walk).errors = [] → Names walk.scopes names →
      Names (f walk).scopes (openNames ms names))
    (hdistances : ∀ walk, (f walk).distances = walk.distances)
    (hms : ∀ names id d, ¬Reaches ms names id d) : Tells ms f :=
  ⟨hclean, hnames, fun _ _ id d => by simp [hdistances, hms]⟩

theorem seq (hf : Tells ms f) (hg : Tells ms' g) : Tells (ms ++ ms') (fun walk => g (f walk)) where
  clean h := hf.clean (hg.clean h)
  names h hnames := by
    rw [openNames_append]
    exact hg.names h (hf.names (hg.clean h) hnames)
  bound h hnames id d := by
    have hclean := hg.clean h
    rw [hg.bound h (hf.names hclean hnames), hf.bound hclean hnames, reaches_append, or_assoc]

theorem of_finds {os : List Occurrence} (h : Finds os f) : Tells (os.map .uses) f where
  clean := h.clean
  names {walk names} _ hnames := by rwa [openNames_uses, h.scopes walk]
  bound {walk names} hclean hnames id d := by
    rw [h.bound hclean, reaches_uses]
    simp only [Walk.distance?, hnames.openDistance]

theorem nothing : Tells [] id := .of_finds .nothing

theorem enter : Tells [.opens] (·.enter .empty) :=
  .silent (enter_covers .empty).clean (fun _ hnames => .cons (by simp [contains_empty]) hnames)
    (fun _ => rfl) (by simp [reaches_cons, reaches_nil])

theorem enterClass : Tells [.opens, .declares receiverName] (·.enter classScope) := by
  refine .silent (enter_covers classScope).clean (fun _ hnames => .cons (fun name => ?_) hnames)
    (fun _ => rfl) (by simp [reaches_cons, reaches_nil])
  rw [classScope, contains_insert, contains_empty, List.mem_singleton]
  simp

theorem leave : Tells [.closes] Walk.leave :=
  .silent leave_covers.clean (fun _ hnames => hnames.tail) (fun _ => rfl)
    (by simp [reaches_cons, reaches_nil])

theorem declare (name : Token) : Tells [.declares name.lexeme] (·.declare name) := by
  refine .silent (declare_covers name).clean (fun {walk _} h hnames => ?_)
    (fun walk => walk.distances_declare name) (by simp [reaches_cons, reaches_nil])
  rw [Walk.scopes_declare h]
  exact hnames.declaring

/-- A name is defined where it was declared. -/
theorem define (hf : Tells ms f) (name : Token)
    (hname : ∀ names, ∀ inner ∈ (openNames ms names).head?, name.lexeme ∈ inner) :
    Tells ms (fun walk => (f walk).define name) where
  clean h := hf.clean ((define_covers name).clean h)
  names {walk names} h hnames := by
    rw [Walk.scopes_define]
    exact (hf.names ((define_covers name).clean h) hnames).defining (hname names)
  bound {walk names} h hnames id d := by
    rw [Walk.distances_define]
    exact hf.bound ((define_covers name).clean h) hnames id d

/-- What is declared in the innermost scope stands first in it. -/
theorem mem_of_declares (names : List (List String)) (name : String) :
    ∀ inner ∈ (openNames [.declares name] names).head?, name ∈ inner := by
  cases names <;> simp [Landmark.apply]

theorem introduce (name : Token) : Tells [.declares name.lexeme] (·.introduce name) :=
  (declare name).define name fun names => mem_of_declares names name.lexeme

theorem introduces (params : List Token) :
    Tells (params.map (fun param => .declares param.lexeme)) (params.foldl Walk.introduce) := by
  induction params with
  | nil => exact nothing
  | cons param more ih => exact (introduce param).seq ih

theorem checkReturn (context : Context) (keyword : Token) (hasValue : Bool) :
    Tells [] (·.checkReturn context keyword hasValue) :=
  .silent (checkReturn_covers context keyword hasValue).clean
    (fun {walk _} _ hnames => by rwa [walk.scopes_checkReturn])
    (fun walk => walk.distances_checkReturn context keyword hasValue) (fun _ _ _ => reaches_nil)

end Tells

theorem expression_tells (insideClass : Bool) (value : Expr) :
    Tells value.landmarks (expression insideClass value) :=
  .of_finds (expression_finds insideClass value)

theorem optional_tells (insideClass : Bool) (value : Option Expr) :
    Tells (Expr.landmarksOf value) (optional insideClass value) :=
  .of_finds (optional_finds insideClass value)

mutual

/-- A walk over a statement tells its landmarks. -/
theorem statement_tells (context : Context) : ∀ (t : Stmt),
    Tells t.landmarks (statement context t)
  | .expression value => expression_tells context.insideClass value
  | .print value => expression_tells context.insideClass value
  | .varDecl name initializer => by
    refine ((Tells.declare name).seq (optional_tells context.insideClass initializer)).define name
      fun names => ?_
    rw [openNames_append, Expr.landmarksOf, openNames_uses]
    exact Tells.mem_of_declares names name.lexeme
  | .block body =>
    Tells.enter.seq ((statements_tells context body).seq .leave)
  | .ifThen condition thenBranch =>
    (expression_tells context.insideClass condition).seq (statement_tells context thenBranch)
  | .ifElse condition thenBranch elseBranch =>
    (expression_tells context.insideClass condition).seq
      ((statement_tells context thenBranch).seq (statement_tells context elseBranch))
  | .whileLoop condition body =>
    (expression_tells context.insideClass condition).seq (statement_tells context body)
  | .funDecl declaration =>
    (Tells.introduce declaration.name).seq (function_tells _ declaration)
  | .returns keyword value =>
    (Tells.checkReturn context keyword value.isSome).seq (optional_tells context.insideClass value)
  | .classDecl name declarations =>
    (Tells.introduce name).seq (Tells.enterClass.seq ((methods_tells declarations).seq .leave))

/-- A walk over a function tells its landmarks. -/
theorem function_tells (context : Context) : ∀ (declaration : FunctionDecl),
    Tells declaration.landmarks (function context declaration)
  | ⟨_, params, body⟩ =>
    Tells.enter.seq ((Tells.introduces params).seq ((statements_tells context body).seq .leave))

/-- A walk over statements tells their landmarks. -/
theorem statements_tells (context : Context) : ∀ (body : List Stmt),
    Tells (Stmt.landmarksIn body) (statements context body)
  | [] => .nothing
  | first :: more => (statement_tells context first).seq (statements_tells context more)

/-- A walk over methods tells their landmarks. -/
theorem methods_tells : ∀ (declarations : List FunctionDecl),
    Tells (FunctionDecl.landmarksIn declarations) (methods declarations)
  | [] => .nothing
  | first :: more => (function_tells _ first).seq (methods_tells more)

end

end Lox.Resolution

namespace Lox

/-- What is recorded of the uses among the landmarks is what their names denote: the distances are those
of uses that denote something (`recorded`), and if no other use has the identity of a use, then just
the distance that it denotes is recorded of it, and none just if it denotes no scope (`use`). -/
structure LexicallyScoped (ms : List Landmark) (distances : Distances) : Prop where
  recorded : ∀ id d, (id, d) ∈ distances ↔
    ∃ before o after, ms = before ++ .uses o :: after ∧ o.id = id ∧ Denotes before o.token.lexeme d
  use : ∀ before o after, ms = before ++ .uses o :: after →
    (∀ other, .uses other ∈ before ++ after → other.id ≠ o.id) →
    (∀ d, (o.id, d) ∈ distances ↔ Denotes before o.token.lexeme d) ∧
      ((∀ d, (o.id, d) ∉ distances) ↔ DenotesNone before o.token.lexeme)

/-- A use whose identity no other use has stands in one place only. -/
theorem use_unique {before after before' after' : List Landmark} {o o' : Occurrence}
    (h : before ++ .uses o :: after = before' ++ .uses o' :: after')
    (hother : ∀ other, .uses other ∈ before ++ after → other.id ≠ o.id) (hid : o'.id = o.id) :
    before' = before ∧ o' = o := by
  rcases List.append_eq_append_iff.mp h with ⟨between, rfl, hrest⟩ | ⟨between, rfl, hrest⟩
  · cases between with
    | nil =>
      injection hrest with h _
      injection h with h
      exact ⟨List.append_nil before, h.symm⟩
    | cons m between =>
      injection hrest with _ hrest
      exact absurd hid (hother o' (by simp [hrest]))
  · cases between with
    | nil =>
      injection hrest with h _
      injection h with h
      exact ⟨(List.append_nil before').symm, h⟩
    | cons m between =>
      injection hrest with h _
      exact absurd hid (hother o' (by simp [← h]))

theorem Resolution.Tells.lexicallyScoped {ms : List Landmark} {f : Walk → Walk} {distances : Distances}
    (hf : Tells ms f) (h : (f .start).result = .ok distances) : LexicallyScoped ms distances := by
  obtain ⟨hclean, rfl⟩ : (f .start).errors = [] ∧ (f .start).distances = distances := by
    unfold Walk.result at h
    split at h
    · next hempty => exact ⟨List.isEmpty_iff.mp hempty, Except.ok.inj h⟩
    · nomatch h
  have recorded : ∀ id d, (id, d) ∈ (f .start).distances ↔
      ∃ before o after, ms = before ++ .uses o :: after ∧ o.id = id ∧
        Denotes before o.token.lexeme d := by
    intro id d
    -- the walk starts outside of all scopes
    rw [hf.bound hclean (show Names Walk.start.scopes [] from .nil)]
    simp [Reaches, denotes_iff, Walk.start]
  refine ⟨recorded, fun before o after hms hother => ?_⟩
  have single : ∀ d, (o.id, d) ∈ (f .start).distances ↔ Denotes before o.token.lexeme d := by
    intro d
    rw [recorded]
    constructor
    · rintro ⟨before', o', after', hms', hid, hd⟩
      obtain ⟨rfl, rfl⟩ := use_unique (hms ▸ hms') hother hid
      exact hd
    · exact fun hd => ⟨before, o, after, hms, rfl, hd⟩
  refine ⟨single, ?_⟩
  simp only [single, denotes_iff, denotesNone_iff]
  exact (Option.eq_none_iff_forall_ne_some).symm

/-- What is bound in a program, or in an expression outside of everything, is what its names denote: of
each of its occurrences the distance to the innermost scope around it that declares the name up to
there is recorded, and nothing if there is no such scope. -/
theorem resolution_is_lexical :
    (∀ program distances, resolveProgram program = .ok distances →
      LexicallyScoped (Stmt.landmarksIn program) distances ∧
        ∀ o, .uses o ∈ Stmt.landmarksIn program ↔ o ∈ Stmt.occurrencesIn program) ∧
      ∀ value distances, resolveExpression value = .ok distances →
        LexicallyScoped value.landmarks distances ∧
          ∀ o, .uses o ∈ value.landmarks ↔ o ∈ value.occurrences :=
  ⟨fun program _ h => ⟨(Resolution.statements_tells .outermost program).lexicallyScoped h,
      fun _ => Stmt.mem_landmarksIn program⟩,
    fun value _ h => ⟨(Resolution.expression_tells false value).lexicallyScoped h,
      fun _ => Expr.mem_landmarks⟩⟩

/-- The program `{ var a; class f { f(f) { a; f; var a = a = this; a; } } f; } a;`. -/
def shadowedNames : List Stmt :=
  let a : Token := ⟨.identifier, "a", 1⟩
  let f : Token := ⟨.identifier, "f", 1⟩
  let this : Token := ⟨.keyword .thisKw, receiverName, 1⟩
  let body : List Stmt :=
    [.expression (.var 0 a), .expression (.var 1 f),
      .varDecl a (some (.assign 2 a (.this 3 this))), .expression (.var 4 a)]
  [.block [.varDecl a none, .classDecl f [⟨f, [f], body⟩], .expression (.var 5 f)],
    .expression (.var 6 a)]

/-- In the method, the first `a` is that of the block, although the method declares another one later. -/
theorem resolution_of_shadowing :
    resolveProgram shadowedNames = .ok [(5, 0), (4, 0), (2, 0), (3, 1), (1, 0), (0, 2)] ∧
      LexicallyScoped (Stmt.landmarksIn shadowedNames) [(5, 0), (4, 0), (2, 0), (3, 1), (1, 0), (0, 2)] :=
  have resolved : resolveProgram shadowedNames =
      .ok [(5, 0), (4, 0), (2, 0), (3, 1), (1, 0), (0, 2)] := rfl
  ⟨resolved, (resolution_is_lexical.1 shadowedNames _ resolved).1⟩

end Lox
