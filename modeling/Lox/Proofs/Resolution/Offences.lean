import Lox.Proofs.Resolution.Lexical
import Lox.Resolution

/-!
# What is wrong with names in a text

Read in the order of the walk, a program opens scopes of several kinds, declares and defines names,
reads them, uses the receiver, returns and closes its scopes. These are its *marks*, and what is wrong
with one of them is a matter of the marks in front of it alone (`Offends`). Of two declarations of a name
in one scope, it is the later one; of a name that is read before it is defined, the read.

The scopes around a place are those of its landmarks (`landmarksOf`), with what opened each of them
(`Inside`). To find their kinds, it is enough to keep the kinds of the scopes that are open
(`inside_iff`).
-/

namespace Lox

/-! ## Marks -/

/-- What opens a scope. -/
inductive ScopeKind where
  | block
  | function
  | method (name : Token)
  | cls

/-- Holds if the scope is that of a function or a method. -/
def ScopeKind.isFunction : ScopeKind → Bool
  | .function | .method _ => true
  | .block | .cls => false

/-- What a program does at a place, as far as something may be wrong with it there or later. -/
inductive Mark where
  | opens (kind : ScopeKind)
  | declares (name : Token)
  | defines (name : Token)
  | reads (name : Token)
  | receiver (keyword : Token)
  | returns (keyword : Token) (hasValue : Bool)
  | closes

mutual

/-- The marks of an expression. What is stored in a property comes before the object. -/
def Expr.marks : Expr → List Mark
  | .literal _ => []
  | .grouping inner => inner.marks
  | .unary _ operand => operand.marks
  | .binary left _ right | .logical left _ right => left.marks ++ right.marks
  | .var _ name => [.reads name]
  | .assign _ _ value => value.marks
  | .call callee _ arguments => callee.marks ++ Expr.marksIn arguments
  | .get object _ => object.marks
  | .set object _ value => value.marks ++ object.marks
  | .this _ keyword => [.receiver keyword]

/-- The marks of expressions from left to right. -/
def Expr.marksIn : List Expr → List Mark
  | [] => []
  | first :: more => first.marks ++ Expr.marksIn more

end

/-- The marks of an expression that may be missing. -/
def Expr.marksOf : Option Expr → List Mark
  | none => []
  | some value => value.marks

/-- The marks of a parameter. -/
def Token.introduction (name : Token) : List Mark := [.declares name, .defines name]

mutual

/-- The marks of a statement. A variable is defined behind its initializer, any other name where it is
declared. -/
def Stmt.marks : Stmt → List Mark
  | .expression value | .print value => value.marks
  | .varDecl name initializer => .declares name :: (Expr.marksOf initializer ++ [.defines name])
  | .block body => .opens .block :: (Stmt.marksIn body ++ [.closes])
  | .ifThen condition thenBranch => condition.marks ++ thenBranch.marks
  | .ifElse condition thenBranch elseBranch =>
    condition.marks ++ (thenBranch.marks ++ elseBranch.marks)
  | .whileLoop condition body => condition.marks ++ body.marks
  | .funDecl declaration => declaration.name.introduction ++ declaration.marks .function
  | .returns keyword value => .returns keyword value.isSome :: Expr.marksOf value
  | .classDecl name methods =>
    name.introduction ++ .opens .cls :: (FunctionDecl.marksIn methods ++ [.closes])

/-- The marks of a function from its parameters on, which share a scope with the body. -/
def FunctionDecl.marks (kind : ScopeKind) : FunctionDecl → List Mark
  | ⟨_, params, body⟩ =>
    .opens kind :: (params.flatMap Token.introduction ++ (Stmt.marksIn body ++ [.closes]))

/-- The marks of statements. A program opens no scope. -/
def Stmt.marksIn : List Stmt → List Mark
  | [] => []
  | first :: more => first.marks ++ Stmt.marksIn more

/-- The marks of the methods of a class. -/
def FunctionDecl.marksIn : List FunctionDecl → List Mark
  | [] => []
  | first :: more => first.marks (.method first.name) ++ FunctionDecl.marksIn more

end

/-! ## Scopes around a place -/

/-- The landmarks at a mark, uses left out. The scope of a class declares the receiver. -/
def Mark.landmarks : Mark → List Landmark
  | .opens .cls => [.opens, .declares receiverName]
  | .opens .block | .opens .function | .opens (.method _) => [.opens]
  | .declares name => [.declares name.lexeme]
  | .defines _ | .reads _ | .receiver _ | .returns _ _ => []
  | .closes => [.closes]

/-- The landmarks at marks. -/
def Mark.landmarksOf (ms : List Mark) : List Landmark := ms.flatMap Mark.landmarks

/-- Behind the marks, a scope of this kind is open, with `d` others between it and that place. -/
def Inside (before : List Mark) (d : Nat) (kind : ScopeKind) : Prop :=
  ∃ outside inside, before = outside ++ .opens kind :: inside ∧ Leaves d (Mark.landmarksOf inside)

/-- Behind the marks, the innermost scope around that place declares the name up to there. -/
def DeclaredHere (before : List Mark) (name : String) : Prop :=
  ∃ inside, Encloses (Mark.landmarksOf before) 0 inside ∧ Declares inside name

/-- There is a scope around the place behind the marks, and the innermost one does not declare the name
up to there. -/
def NewHere (before : List Mark) (name : String) : Prop :=
  ∃ inside, Encloses (Mark.landmarksOf before) 0 inside ∧ ¬Declares inside name

/-- The mark stands in an expression. -/
def Mark.IsUse : Mark → Prop
  | .reads _ | .receiver _ => True
  | .opens _ | .declares _ | .defines _ | .returns _ _ | .closes => False

/-- The place behind the marks is in the initializer of the first declaration of the name in the
innermost scope around it. -/
def InOwnInitializer (before : List Mark) (name : String) : Prop :=
  ∃ earlier token between, before = earlier ++ .declares token :: between ∧ token.lexeme = name ∧
    NewHere earlier name ∧ ∀ m ∈ between, m.IsUse

/-- The innermost function around the place behind the marks is one of this kind. -/
def InFunction (before : List Mark) (kind : ScopeKind) : Prop :=
  ∃ d, Inside before d kind ∧ kind.isFunction = true ∧
    ∀ nearer < d, ∀ other, Inside before nearer other → other.isFunction = false

/-- What is wrong with a mark behind others: a name is declared that the scope has declared; a name is
read in the initializer of its first declaration in the innermost scope; `return` stands outside of
functions, or has a value and stands in the initializer of a class; or `this` stands outside of
classes. -/
inductive Offends (before : List Mark) : Mark → ScopeError → Prop
  | redeclared {name : Token} : DeclaredHere before name.lexeme →
      Offends before (.declares name) ⟨name, .redeclared⟩
  | readInOwnInitializer {name : Token} : InOwnInitializer before name.lexeme →
      Offends before (.reads name) ⟨name, .readInOwnInitializer⟩
  | returnOutsideFunction {keyword : Token} {hasValue : Bool} : (∀ kind, ¬InFunction before kind) →
      Offends before (.returns keyword hasValue) ⟨keyword, .returnOutsideFunction⟩
  | valueFromInitializer {keyword name : Token} : InFunction before (.method name) →
      name.lexeme = initializerName →
      Offends before (.returns keyword true) ⟨keyword, .valueFromInitializer⟩
  | thisOutsideClass {keyword : Token} : (∀ d, ¬Inside before d .cls) →
      Offends before (.receiver keyword) ⟨keyword, .thisOutsideClass⟩

/-- The errors are those of the marks behind others that offend, one for each of them and in their
order. -/
inductive Lists : List Mark → List Mark → List ScopeError → Prop
  | nil {before : List Mark} : Lists before [] []
  | offending {before ms : List Mark} {m : Mark} {error : ScopeError} {errors : List ScopeError} :
      Offends before m error → Lists (before ++ [m]) ms errors →
      Lists before (m :: ms) (error :: errors)
  | harmless {before ms : List Mark} {m : Mark} {errors : List ScopeError} :
      (∀ error, ¬Offends before m error) → Lists (before ++ [m]) ms errors →
      Lists before (m :: ms) errors

/-- At most one thing is wrong with a mark. -/
theorem Offends.unique {before : List Mark} {m : Mark} {error error' : ScopeError}
    (h : Offends before m error) (h' : Offends before m error') : error = error' := by
  cases h with
  | redeclared => cases h'; rfl
  | readInOwnInitializer => cases h'; rfl
  | returnOutsideFunction houtside =>
    cases h' with
    | returnOutsideFunction => rfl
    | valueFromInitializer hinside => exact absurd hinside (houtside _)
  | valueFromInitializer hinside =>
    cases h' with
    | returnOutsideFunction houtside => exact absurd hinside (houtside _)
    | valueFromInitializer => rfl
  | thisOutsideClass => cases h'; rfl

namespace Lists

variable {before ms ms' : List Mark} {errors errors' : List ScopeError}

theorem append (h : Lists before ms errors) (h' : Lists (before ++ ms) ms' errors') :
    Lists before (ms ++ ms') (errors ++ errors') := by
  induction h with
  | nil => simpa using h'
  | offending hm _ ih =>
    rw [List.append_cons] at h'
    exact .offending hm (ih h')
  | harmless hm _ ih =>
    rw [List.append_cons] at h'
    exact .harmless hm (ih h')

theorem unique (h : Lists before ms errors) (h' : Lists before ms errors') : errors = errors' := by
  induction h generalizing errors' with
  | nil =>
    cases h'
    rfl
  | offending hm _ ih =>
    cases h' with
    | offending hm' h' => rw [hm.unique hm', ih h']
    | harmless hm' _ => exact absurd hm (hm' _)
  | harmless hm _ ih =>
    cases h' with
    | offending hm' _ => exact absurd hm' (hm _)
    | harmless _ h' => exact ih h'

/-- There is an error just if a mark offends. -/
theorem ne_nil_iff (h : Lists before ms errors) : errors ≠ [] ↔
    ∃ earlier m later error, ms = earlier ++ m :: later ∧ Offends (before ++ earlier) m error := by
  induction h with
  | nil => simp
  | @offending before ms m error _ hm _ _ =>
    exact ⟨fun _ => ⟨[], m, ms, error, rfl, by simpa using hm⟩, fun _ => List.cons_ne_nil _ _⟩
  | @harmless before ms m _ hm _ ih =>
    rw [ih]
    constructor
    · rintro ⟨earlier, m', later, error, rfl, hoffends⟩
      exact ⟨m :: earlier, m', later, error, rfl, by rwa [List.append_cons]⟩
    · rintro ⟨earlier, m', later, error, heq, hoffends⟩
      cases earlier with
      | nil =>
        obtain ⟨rfl, rfl⟩ := List.cons.inj heq
        exact absurd (by simpa using hoffends) (hm error)
      | cons _ earlier =>
        obtain ⟨rfl, rfl⟩ := List.cons.inj heq
        exact ⟨earlier, m', later, error, rfl, by rwa [← List.append_cons]⟩

end Lists

/-! ## The kinds of the scopes that are open -/

/-- How many scopes are open behind a landmark, of those that are counted. -/
def Landmark.depth : Nat → Landmark → Option Nat
  | d, .opens => some (d + 1)
  | d, .declares _ | d, .uses _ => some d
  | 0, .closes => none
  | d + 1, .closes => some d

/-- Matching is counting. -/
theorem leaves_iff {ms : List Landmark} {d : Nat} :
    Leaves d ms ↔ ms.foldlM Landmark.depth 0 = some d := by
  constructor
  · intro h
    have counted : ∀ n, ms.foldlM Landmark.depth n = some (n + d) := by
      induction h with
      | nil => exact fun _ => rfl
      | declares _ ih | uses _ ih => exact ih
      | scope _ _ ihinside ih =>
        intro n
        rw [List.foldlM_cons, Landmark.depth, Option.bind_eq_bind, Option.bind_some,
          List.foldlM_append, ihinside]
        exact ih n
      | opens _ ih =>
        intro n
        rw [List.foldlM_cons, Landmark.depth, Option.bind_eq_bind, Option.bind_some, ih,
          Nat.add_right_comm]
        rfl
    simpa using counted 0
  · intro h
    induction ms using List.reverseRecOn generalizing d with
    | nil =>
      cases h
      exact .nil
    | append_singleton ms m ih =>
      rw [List.foldlM_append] at h
      obtain ⟨n, hn, h⟩ := Option.bind_eq_some_iff.mp h
      have earlier : Leaves n ms := ih hn
      cases m with
      | opens =>
        cases h
        exact earlier.append (.opens .nil)
      | declares name =>
        cases h
        exact earlier.append (.declares .nil)
      | uses o =>
        cases h
        exact earlier.append (.uses .nil)
      | closes =>
        cases n with
        | zero => nomatch h
        | succ n =>
          cases h
          exact earlier.closing

/-- What a mark does to the kinds of the open scopes, the innermost first. -/
def Mark.apply : List ScopeKind → Mark → List ScopeKind
  | kinds, .opens kind => kind :: kinds
  | kinds, .closes => kinds.tail
  | kinds, .declares _ | kinds, .defines _ | kinds, .reads _ | kinds, .receiver _
  | kinds, .returns _ _ => kinds

/-- The kinds of the scopes that are open behind the marks. -/
def openKinds (ms : List Mark) : List ScopeKind := ms.foldl Mark.apply []

@[simp] theorem openKinds_append_singleton {before : List Mark} {m : Mark} :
    openKinds (before ++ [m]) = Mark.apply (openKinds before) m := by
  simp [openKinds]

theorem Mark.landmarksOf_append_singleton {before : List Mark} {m : Mark} :
    Mark.landmarksOf (before ++ [m]) = Mark.landmarksOf before ++ m.landmarks := by
  simp [Mark.landmarksOf]

section

variable {before : List Mark} {m : Mark} {d : Nat} {kind : ScopeKind}

/-- A scope that is open behind one more mark is opened by it, or was open in front of it. -/
theorem inside_append_singleton : Inside (before ++ [m]) d kind ↔
    (m = .opens kind ∧ d = 0) ∨
      ∃ d', Inside before d' kind ∧ m.landmarks.foldlM Landmark.depth d' = some d := by
  have further : ∀ inside, Leaves d (Mark.landmarksOf (inside ++ [m])) ↔
      ∃ d', Leaves d' (Mark.landmarksOf inside) ∧ m.landmarks.foldlM Landmark.depth d' = some d := by
    intro inside
    rw [leaves_iff, Mark.landmarksOf_append_singleton, List.foldlM_append]
    simp only [leaves_iff]
    exact Option.bind_eq_some_iff
  constructor
  · rintro ⟨outside, inside, heq, hinside⟩
    cases inside using List.reverseRecOn with
    | nil =>
      obtain ⟨-, h⟩ := List.append_inj' heq rfl
      cases h
      cases hinside
      exact .inl ⟨rfl, rfl⟩
    | append_singleton inside last =>
      rw [← List.cons_append, ← List.append_assoc] at heq
      obtain ⟨rfl, h⟩ := List.append_inj' heq rfl
      cases h
      obtain ⟨d', hinside, hd⟩ := (further inside).mp hinside
      exact .inr ⟨d', ⟨outside, inside, rfl, hinside⟩, hd⟩
  · rintro (⟨rfl, rfl⟩ | ⟨d', ⟨outside, inside, rfl, hinside⟩, hd⟩)
    · exact ⟨before, [], rfl, .nil⟩
    · exact ⟨outside, inside ++ [m], by simp, (further inside).mpr ⟨d', hinside, hd⟩⟩

/-- The kinds of the scopes around a place are those that are kept. -/
theorem inside_iff : Inside before d kind ↔ (openKinds before)[d]? = some kind := by
  induction before using List.reverseRecOn generalizing d with
  | nil => simp [Inside, openKinds]
  | append_singleton before m ih =>
    rw [inside_append_singleton, openKinds_append_singleton]
    simp only [ih]
    cases m with
    | opens other =>
      have opened : ∀ d', (Mark.opens other).landmarks.foldlM Landmark.depth d' = some (d' + 1) := by
        intro d'
        cases other <;> rfl
      cases d <;> simp [opened, Mark.apply]
    | closes =>
      constructor
      · rintro (⟨h, -⟩ | ⟨_ | d', hd', hd⟩)
        · nomatch h
        · nomatch hd
        · cases hd
          simpa [Mark.apply] using hd'
      · intro h
        exact .inr ⟨d + 1, by simpa [Mark.apply] using h, rfl⟩
    | _ => simp [Mark.landmarks, Mark.apply, Landmark.depth]

/-- The innermost function around a place is the first one among the kinds that are kept. -/
theorem inFunction_iff :
    InFunction before kind ↔ (openKinds before).find? ScopeKind.isFunction = some kind := by
  simp only [InFunction, inside_iff, List.find?_eq_some_iff_getElem, List.getElem?_eq_some_iff]
  constructor
  · rintro ⟨d, ⟨hd, rfl⟩, hfunction, hnearer⟩
    refine ⟨hfunction, d, hd, rfl, fun nearer hlt => ?_⟩
    rw [hnearer nearer hlt _ ⟨Nat.lt_trans hlt hd, rfl⟩]
    rfl
  · rintro ⟨hfunction, d, hd, rfl, hnearer⟩
    refine ⟨d, ⟨hd, rfl⟩, hfunction, ?_⟩
    rintro nearer hlt other ⟨hother, rfl⟩
    simpa using hnearer nearer hlt

end

/-! ## The names of the innermost scope -/

section

variable {before : List Mark} {m : Mark} {name : String}

theorem declaredHere_iff : DeclaredHere before name ↔
    ∃ names ∈ (openNames (Mark.landmarksOf before) []).head?, name ∈ names := by
  rw [DeclaredHere, exists_declares_iff, ← List.head?_eq_getElem?]
  rfl

theorem newHere_iff : NewHere before name ↔
    ∃ names ∈ (openNames (Mark.landmarksOf before) []).head?, name ∉ names := by
  simp only [List.head?_eq_getElem?, Option.mem_def]
  constructor
  · rintro ⟨inside, hinside, hname⟩
    obtain ⟨names, hnames, hiff⟩ := hinside.names
    exact ⟨names, hnames, fun h => hname ((hiff name).mp h)⟩
  · rintro ⟨names, hnames, hname⟩
    obtain ⟨inside, hinside⟩ := exists_encloses (List.getElem?_eq_some_iff.mp hnames).1
    obtain ⟨names', hnames', hiff⟩ := hinside.names
    obtain rfl := Option.some.inj (hnames.symm.trans hnames')
    exact ⟨inside, hinside, fun h => hname ((hiff name).mpr h)⟩

/-- An initializer starts at a declaration and goes on with uses. -/
theorem inOwnInitializer_append_singleton : InOwnInitializer (before ++ [m]) name ↔
    (∃ token, m = .declares token ∧ token.lexeme = name ∧ NewHere before name) ∨
      (m.IsUse ∧ InOwnInitializer before name) := by
  constructor
  · rintro ⟨earlier, token, between, heq, hname, hnew, huse⟩
    cases between using List.reverseRecOn with
    | nil =>
      obtain ⟨rfl, h⟩ := List.append_inj' heq rfl
      cases h
      exact .inl ⟨token, rfl, hname, hnew⟩
    | append_singleton between last =>
      rw [← List.cons_append, ← List.append_assoc] at heq
      obtain ⟨rfl, h⟩ := List.append_inj' heq rfl
      cases h
      refine .inr ⟨huse m (by simp), earlier, token, between, rfl, hname, hnew, ?_⟩
      exact fun use h => huse use (List.mem_append_left _ h)
  · rintro (⟨token, rfl, hname, hnew⟩ | ⟨hm, earlier, token, between, rfl, hname, hnew, huse⟩)
    · exact ⟨before, token, [], rfl, hname, hnew, by simp⟩
    · refine ⟨earlier, token, between ++ [m], by simp, hname, hnew, fun use h => ?_⟩
      rcases List.mem_append.mp h with h | h
      · exact huse use h
      · exact List.mem_singleton.mp h ▸ hm

end

end Lox
