import Lox.Proofs.Syntax.Numbering
import Mathlib.Data.List.Induction

/-!
# What names denote in a text

Read from its start to its end, a program opens scopes, declares names, uses them, and closes the scopes
again. These are its *landmarks*, and they alone say what a use of a name denotes. Around a place are
the scopes that were opened before it and are not closed there (`Encloses`). A scope declares a name up
to a place if the name is declared between the opening of the scope and the place, and not in a scope
inside of it (`Declares`). A use denotes the innermost scope around it that declares the name up to
there (`Denotes`), so never one that declares it later.

To find that scope, it is enough to keep the names of the scopes that are open (`denotes_iff`).
-/

namespace Lox

/-! ## Landmarks -/

/-- What happens to names at a place in a program. -/
inductive Landmark where
  | opens
  | declares (name : String)
  | uses (o : Occurrence)
  | closes

/-- The landmarks of an expression are its occurrences. -/
def Expr.landmarks (e : Expr) : List Landmark := e.occurrences.map .uses

/-- The landmarks of an expression that may be missing. -/
def Expr.landmarksOf (value : Option Expr) : List Landmark := (Expr.occurrencesOf value).map .uses

mutual

/-- The landmarks of a statement. A name is declared before its initializer, and the name of a function
before its parameters and its body, which share a scope. The scope of a class declares the receiver. -/
def Stmt.landmarks : Stmt → List Landmark
  | .expression value | .print value => value.landmarks
  | .varDecl name initializer => .declares name.lexeme :: Expr.landmarksOf initializer
  | .block body => .opens :: (Stmt.landmarksIn body ++ [.closes])
  | .ifThen condition thenBranch => condition.landmarks ++ thenBranch.landmarks
  | .ifElse condition thenBranch elseBranch =>
    condition.landmarks ++ (thenBranch.landmarks ++ elseBranch.landmarks)
  | .whileLoop condition body => condition.landmarks ++ body.landmarks
  | .funDecl declaration => .declares declaration.name.lexeme :: declaration.landmarks
  | .returns _ value => Expr.landmarksOf value
  | .classDecl name methods =>
    .declares name.lexeme :: .opens :: .declares receiverName ::
      (FunctionDecl.landmarksIn methods ++ [.closes])

/-- The landmarks of a function from its parameters on. -/
def FunctionDecl.landmarks : FunctionDecl → List Landmark
  | ⟨_, params, body⟩ =>
    .opens :: (params.map (fun param => .declares param.lexeme) ++
      (Stmt.landmarksIn body ++ [.closes]))

/-- The landmarks of statements. A program opens no scope. -/
def Stmt.landmarksIn : List Stmt → List Landmark
  | [] => []
  | first :: more => first.landmarks ++ Stmt.landmarksIn more

/-- The landmarks of methods. -/
def FunctionDecl.landmarksIn : List FunctionDecl → List Landmark
  | [] => []
  | first :: more => first.landmarks ++ FunctionDecl.landmarksIn more

end

theorem Expr.mem_landmarks {e : Expr} {o : Occurrence} : .uses o ∈ e.landmarks ↔ o ∈ e.occurrences := by
  simp [Expr.landmarks]

theorem Expr.mem_landmarksOf {value : Option Expr} {o : Occurrence} :
    .uses o ∈ Expr.landmarksOf value ↔ o ∈ Expr.occurrencesOf value := by
  simp [Expr.landmarksOf]

mutual

/-- The uses among the landmarks of a statement are its occurrences. -/
theorem Stmt.mem_landmarks {o : Occurrence} : ∀ (t : Stmt),
    .uses o ∈ t.landmarks ↔ o ∈ t.occurrences
  | .expression _ | .print _ => Expr.mem_landmarks
  | .varDecl _ _ => by simp [Stmt.landmarks, Stmt.occurrences_varDecl, Expr.mem_landmarksOf]
  | .block body => by simp [Stmt.landmarks, Stmt.occurrences, Stmt.mem_landmarksIn body]
  | .ifThen _ thenBranch => by
    simp [Stmt.landmarks, Stmt.occurrences, Expr.mem_landmarks, Stmt.mem_landmarks thenBranch]
  | .ifElse _ thenBranch elseBranch => by
    simp [Stmt.landmarks, Stmt.occurrences, Expr.mem_landmarks, Stmt.mem_landmarks thenBranch,
      Stmt.mem_landmarks elseBranch]
  | .whileLoop _ body => by
    simp [Stmt.landmarks, Stmt.occurrences, Expr.mem_landmarks, Stmt.mem_landmarks body]
  | .funDecl declaration => by
    simp [Stmt.landmarks, Stmt.occurrences, FunctionDecl.mem_landmarks declaration]
  | .returns _ _ => by simp [Stmt.landmarks, Stmt.occurrences_returns, Expr.mem_landmarksOf]
  | .classDecl _ methods => by
    simp [Stmt.landmarks, Stmt.occurrences, FunctionDecl.mem_landmarksIn methods]

theorem FunctionDecl.mem_landmarks {o : Occurrence} : ∀ (declaration : FunctionDecl),
    .uses o ∈ declaration.landmarks ↔ o ∈ declaration.occurrences
  | ⟨_, _, body⟩ => by
    simp [FunctionDecl.landmarks, FunctionDecl.occurrences, Stmt.mem_landmarksIn body]

theorem Stmt.mem_landmarksIn {o : Occurrence} : ∀ (body : List Stmt),
    .uses o ∈ Stmt.landmarksIn body ↔ o ∈ Stmt.occurrencesIn body
  | [] => by simp [Stmt.landmarksIn, Stmt.occurrencesIn]
  | first :: more => by
    simp [Stmt.landmarksIn, Stmt.occurrencesIn, Stmt.mem_landmarks first, Stmt.mem_landmarksIn more]

theorem FunctionDecl.mem_landmarksIn {o : Occurrence} : ∀ (declarations : List FunctionDecl),
    .uses o ∈ FunctionDecl.landmarksIn declarations ↔ o ∈ FunctionDecl.occurrencesIn declarations
  | [] => by simp [FunctionDecl.landmarksIn, FunctionDecl.occurrencesIn]
  | first :: more => by
    simp [FunctionDecl.landmarksIn, FunctionDecl.occurrencesIn, FunctionDecl.mem_landmarks first,
      FunctionDecl.mem_landmarksIn more]

end

/-! ## Scopes around a place -/

/-- Between the landmarks, so many scopes are opened and not closed again, and none that was open before
is closed. -/
inductive Leaves : Nat → List Landmark → Prop
  | nil : Leaves 0 []
  | declares {d : Nat} {name : String} {rest : List Landmark} : Leaves d rest →
      Leaves d (.declares name :: rest)
  | uses {d : Nat} {o : Occurrence} {rest : List Landmark} : Leaves d rest →
      Leaves d (.uses o :: rest)
  | scope {d : Nat} {inside rest : List Landmark} : Leaves 0 inside → Leaves d rest →
      Leaves d (.opens :: (inside ++ .closes :: rest))
  | opens {d : Nat} {rest : List Landmark} : Leaves d rest → Leaves (d + 1) (.opens :: rest)

/-- The scope with `d` others between itself and the place behind the landmarks: what stands in it up to
there. -/
def Encloses (before : List Landmark) (d : Nat) (inside : List Landmark) : Prop :=
  ∃ outside, before = outside ++ .opens :: inside ∧ Leaves d inside

/-- In a scope that is open behind the landmarks, and between them, the name is declared by the scope
itself. -/
def Declares (inside : List Landmark) (name : String) : Prop :=
  ∃ earlier later, inside = earlier ++ .declares name :: later ∧ Leaves 0 earlier

/-- Behind the landmarks, the name denotes the scope at a distance: the innermost one around that place
that declares the name up to there. -/
def Denotes (before : List Landmark) (name : String) (d : Nat) : Prop :=
  (∃ inside, Encloses before d inside ∧ Declares inside name) ∧
    ∀ nearer < d, ∀ inside, Encloses before nearer inside → ¬Declares inside name

/-- No scope around the place behind the landmarks declares the name up to there. -/
def DenotesNone (before : List Landmark) (name : String) : Prop :=
  ∀ d inside, Encloses before d inside → ¬Declares inside name

/-! ## Matching -/

namespace Leaves

variable {d d' : Nat} {ms ms' : List Landmark}

theorem append (h : Leaves d ms) (h' : Leaves d' ms') : Leaves (d + d') (ms ++ ms') := by
  induction h with
  | nil => simpa using h'
  | declares _ ih => exact .declares ih
  | uses _ ih => exact .uses ih
  | scope hinside _ _ ih =>
    rw [List.cons_append, List.append_assoc, List.cons_append]
    exact .scope hinside ih
  | opens _ ih =>
    rw [Nat.add_right_comm]
    exact .opens ih

/-- The end of a scope closes the one that was opened last. -/
theorem closing (h : Leaves (d + 1) ms) : Leaves d (ms ++ [.closes]) := by
  generalize hn : d + 1 = n at h
  induction h generalizing d with
  | nil => nomatch hn
  | declares _ ih => exact .declares (ih hn)
  | uses _ ih => exact .uses (ih hn)
  | scope hinside _ _ ih =>
    rw [List.cons_append, List.append_assoc, List.cons_append]
    exact .scope hinside (ih hn)
  | opens h ih =>
    injection hn with hn
    subst hn
    cases d with
    | zero => exact .scope h .nil
    | succ d => exact .opens (ih rfl)

/-- A scope that is closed is closed once. -/
theorem closes_unique {inside inside' rest rest' : List Landmark} (h : Leaves 0 inside)
    (h' : Leaves 0 inside') (heq : inside ++ .closes :: rest = inside' ++ .closes :: rest') :
    inside = inside' ∧ rest = rest' := by
  generalize hn : 0 = n at h
  induction h generalizing inside' rest rest' with
  | nil => cases h' <;> simp_all
  | declares _ ih =>
    cases h' with
    | declares h' =>
      rw [List.cons_append, List.cons_append] at heq
      injection heq with hname heq
      obtain ⟨rfl, rfl⟩ := ih h' heq hn
      exact ⟨congrArg (· :: _) hname, rfl⟩
    | _ => simp at heq
  | uses _ ih =>
    cases h' with
    | uses h' =>
      rw [List.cons_append, List.cons_append] at heq
      injection heq with ho heq
      obtain ⟨rfl, rfl⟩ := ih h' heq hn
      exact ⟨congrArg (· :: _) ho, rfl⟩
    | _ => simp at heq
  | scope _ _ ihinside ih =>
    cases h' with
    | scope hinside' h' =>
      simp only [List.cons_append, List.append_assoc, List.cons.injEq, true_and] at heq
      obtain ⟨rfl, hrest⟩ := ihinside hinside' heq rfl
      obtain ⟨rfl, rfl⟩ := ih h' hrest hn
      exact ⟨rfl, rfl⟩
    | _ => simp at heq
  | opens _ _ => nomatch hn

/-- Where no scope is closed that was open before, none is closed in front of that either. -/
theorem no_closes {inside rest : List Landmark} (h : Leaves d ms)
    (hinside : Leaves 0 inside) : ms ≠ inside ++ .closes :: rest := by
  induction h generalizing inside rest with
  | nil => simp
  | declares _ ih =>
    rintro heq
    cases hinside with
    | declares hinside =>
      injection heq with _ heq
      exact ih hinside heq
    | _ => simp at heq
  | uses _ ih =>
    rintro heq
    cases hinside with
    | uses hinside =>
      injection heq with _ heq
      exact ih hinside heq
    | _ => simp at heq
  | scope h _ _ ih =>
    rintro heq
    cases hinside with
    | scope hinside' hinside =>
      simp only [List.cons_append, List.append_assoc, List.cons.injEq, true_and] at heq
      obtain ⟨rfl, hrest⟩ := h.closes_unique hinside' heq
      exact ih hinside hrest
    | _ => simp at heq
  | opens _ ih =>
    rintro heq
    cases hinside with
    | scope hinside' hinside =>
      simp only [List.cons_append, List.append_assoc, List.cons.injEq, true_and] at heq
      exact ih hinside' heq
    | _ => simp at heq

end Leaves

/-! ## What a scope declares -/

section

variable {name other : String} {rest inside : List Landmark}

theorem declares_nil : ¬Declares [] name := by
  rintro ⟨earlier, later, h, -⟩
  simp at h

theorem declares_declares :
    Declares (.declares other :: rest) name ↔ name = other ∨ Declares rest name := by
  constructor
  · rintro ⟨earlier, later, h, hearlier⟩
    cases hearlier with
    | nil =>
      injection h with h _
      injection h with h
      exact .inl h.symm
    | declares hearlier =>
      injection h with _ h
      exact .inr ⟨_, later, h, hearlier⟩
    | _ => simp at h
  · rintro (rfl | ⟨earlier, later, rfl, hearlier⟩)
    · exact ⟨[], rest, rfl, .nil⟩
    · exact ⟨.declares other :: earlier, later, rfl, .declares hearlier⟩

theorem declares_uses {o : Occurrence} : Declares (.uses o :: rest) name ↔ Declares rest name := by
  constructor
  · rintro ⟨earlier, later, h, hearlier⟩
    cases hearlier with
    | uses hearlier =>
      injection h with _ h
      exact ⟨_, later, h, hearlier⟩
    | _ => simp at h
  · rintro ⟨earlier, later, rfl, hearlier⟩
    exact ⟨.uses o :: earlier, later, rfl, .uses hearlier⟩

/-- What a scope inside declares is not declared by the scope itself. -/
theorem declares_scope (hinside : Leaves 0 inside) :
    Declares (.opens :: (inside ++ .closes :: rest)) name ↔ Declares rest name := by
  constructor
  · rintro ⟨earlier, later, h, hearlier⟩
    cases hearlier with
    | scope hinside' hearlier =>
      simp only [List.cons_append, List.append_assoc, List.cons.injEq, true_and] at h
      obtain ⟨-, h⟩ := hinside.closes_unique hinside' h
      exact ⟨_, later, h, hearlier⟩
    | _ => simp at h
  · rintro ⟨earlier, later, rfl, hearlier⟩
    exact ⟨.opens :: (inside ++ .closes :: earlier), later, by simp, .scope hinside hearlier⟩

/-- Nor is what a scope declares that is still open. -/
theorem declares_opens {d : Nat} (hrest : Leaves d rest) : ¬Declares (.opens :: rest) name := by
  rintro ⟨earlier, later, h, hearlier⟩
  cases hearlier with
  | scope hinside _ =>
    simp only [List.cons_append, List.append_assoc, List.cons.injEq, true_and] at h
    exact hrest.no_closes hinside h
  | _ => simp at h

end

/-! ## The names of the scopes that are open -/

/-- What a landmark does to the names of the open scopes, the innermost first. Outside of all scopes
nothing is kept. -/
def Landmark.apply : List (List String) → Landmark → List (List String)
  | scopes, .opens => [] :: scopes
  | [], .declares _ => []
  | names :: outer, .declares name => (name :: names) :: outer
  | scopes, .uses _ => scopes
  | scopes, .closes => scopes.tail

/-- The names of the scopes that are open behind the landmarks. -/
def openNames (ms : List Landmark) (scopes : List (List String)) : List (List String) :=
  ms.foldl Landmark.apply scopes

section

variable {d : Nat} {ms : List Landmark} {scopes : List (List String)}

@[simp] theorem openNames_nil : openNames [] scopes = scopes := rfl

@[simp] theorem openNames_cons {m : Landmark} :
    openNames (m :: ms) scopes = openNames ms (Landmark.apply scopes m) := rfl

@[simp] theorem openNames_append {ms' : List Landmark} :
    openNames (ms ++ ms') scopes = openNames ms' (openNames ms scopes) :=
  List.foldl_append

/-- The landmarks in a scope put new scopes on top of it and add to it what it declares. -/
theorem Leaves.openNames (h : Leaves d ms) (names : List String) (outer : List (List String)) :
    ∃ inner names', openNames ms (names :: outer) = inner ++ names' :: outer ∧ inner.length = d ∧
      ∀ name, name ∈ names' ↔ name ∈ names ∨ Declares ms name := by
  induction h generalizing names outer with
  | nil => exact ⟨[], names, rfl, rfl, by simp [declares_nil]⟩
  | @declares _ other _ _ ih =>
    obtain ⟨inner, names', h, hlength, hnames⟩ := ih (other :: names) outer
    refine ⟨inner, names', h, hlength, fun name => ?_⟩
    rw [hnames, declares_declares, List.mem_cons, or_assoc, or_left_comm]
  | uses _ ih =>
    obtain ⟨inner, names', h, hlength, hnames⟩ := ih names outer
    exact ⟨inner, names', h, hlength, fun name => by rw [hnames, declares_uses]⟩
  | scope hinside _ ihinside ih =>
    -- the scope inside is all that was put on top, and it is taken off again
    obtain ⟨inner, closed, hclosed, hlength, -⟩ := ihinside [] (names :: outer)
    obtain rfl := List.length_eq_zero_iff.mp hlength
    obtain ⟨inner, names', h, hlength, hnames⟩ := ih names outer
    refine ⟨inner, names', ?_, hlength, fun name => by rw [hnames, declares_scope hinside]⟩
    rw [openNames_cons, Landmark.apply, openNames_append, hclosed]
    exact h
  | opens h ih =>
    -- the scope stays open, so nothing more is added to this one
    obtain ⟨inner, opened, hopened, hlength, -⟩ := ih [] (names :: outer)
    refine ⟨inner ++ [opened], names, ?_, by simp [hlength], fun name => ?_⟩
    · rw [openNames_cons, Landmark.apply, hopened, List.append_assoc]
      rfl
    · simp [declares_opens h]

end

/-- The scopes around a place are those whose names are kept, with the names that they declare. -/
theorem Encloses.names {before inside : List Landmark} {d : Nat} (h : Encloses before d inside) :
    ∃ names, (openNames before [])[d]? = some names ∧ ∀ name, name ∈ names ↔ Declares inside name := by
  obtain ⟨outside, rfl, hinside⟩ := h
  obtain ⟨inner, names, hopen, rfl, hnames⟩ := hinside.openNames [] (openNames outside [])
  refine ⟨names, ?_, fun name => by simp [hnames]⟩
  rw [openNames_append, openNames_cons, Landmark.apply, hopen]
  simp

/-- A scope around a place is still around it behind one more landmark, unless that closes it. -/
theorem Encloses.next {before inside : List Landmark} {d : Nat} (h : Encloses before d inside) :
    (∀ name, Encloses (before ++ [.declares name]) d (inside ++ [.declares name])) ∧
      (∀ o, Encloses (before ++ [.uses o]) d (inside ++ [.uses o])) ∧
      Encloses (before ++ [.opens]) (d + 1) (inside ++ [.opens]) ∧
      ∀ d', d = d' + 1 → Encloses (before ++ [.closes]) d' (inside ++ [.closes]) := by
  obtain ⟨outside, rfl, hinside⟩ := h
  refine ⟨fun name => ⟨outside, by simp, ?_⟩, fun o => ⟨outside, by simp, ?_⟩,
    ⟨outside, by simp, ?_⟩, ?_⟩
  · exact hinside.append (.declares .nil)
  · exact hinside.append (.uses .nil)
  · exact hinside.append (.opens .nil)
  · rintro d' rfl
    exact ⟨outside, by simp, hinside.closing⟩

/-- Every scope whose names are kept is one around the place. -/
theorem exists_encloses {before : List Landmark} {d : Nat}
    (h : d < (openNames before []).length) : ∃ inside, Encloses before d inside := by
  induction before using List.reverseRecOn generalizing d with
  | nil => exact absurd h (Nat.not_lt_zero d)
  | append_singleton before m ih =>
    rw [openNames_append] at h
    cases m with
    | opens =>
      cases d with
      | zero => exact ⟨[], before, rfl, .nil⟩
      | succ d =>
        obtain ⟨inside, hinside⟩ := ih (Nat.lt_of_succ_lt_succ h)
        exact ⟨_, hinside.next.2.2.1⟩
    | declares name =>
      have hlength : d < (openNames before []).length := by
        cases hopen : openNames before [] with
        | nil => simp [hopen, Landmark.apply] at h
        | cons names outer => simpa [hopen, Landmark.apply] using h
      obtain ⟨inside, hinside⟩ := ih hlength
      exact ⟨_, hinside.next.1 name⟩
    | uses o =>
      obtain ⟨inside, hinside⟩ := ih h
      exact ⟨_, hinside.next.2.1 o⟩
    | closes =>
      have hlength : d + 1 < (openNames before []).length := by
        simp [Landmark.apply] at h
        omega
      obtain ⟨inside, hinside⟩ := ih hlength
      exact ⟨_, hinside.next.2.2.2 d rfl⟩

/-- The distance to the innermost open scope that has a name. -/
def openDistance (scopes : List (List String)) (name : String) : Option Nat :=
  scopes.findIdx? (·.contains name)

section

variable {before : List Landmark} {name : String} {d : Nat}

/-- A scope around a place declares a name if the name is kept at its distance. -/
theorem exists_declares_iff :
    (∃ inside, Encloses before d inside ∧ Declares inside name) ↔
      ∃ names, (openNames before [])[d]? = some names ∧ name ∈ names := by
  constructor
  · rintro ⟨inside, hinside, hname⟩
    obtain ⟨names, hnames, hiff⟩ := hinside.names
    exact ⟨names, hnames, (hiff name).mpr hname⟩
  · rintro ⟨names, hnames, hname⟩
    obtain ⟨inside, hinside⟩ := exists_encloses (List.getElem?_eq_some_iff.mp hnames).1
    obtain ⟨names', hnames', hiff⟩ := hinside.names
    obtain rfl := Option.some.inj (hnames.symm.trans hnames')
    exact ⟨inside, hinside, (hiff name).mp hname⟩

theorem not_declares_iff :
    (∀ inside, Encloses before d inside → ¬Declares inside name) ↔
      ∀ names, (openNames before [])[d]? = some names → name ∉ names := by
  simpa only [not_exists, not_and] using
    not_congr (@exists_declares_iff before name d)

/-- What a name denotes can be read off the names of the open scopes. -/
theorem denotes_iff : Denotes before name d ↔ openDistance (openNames before []) name = some d := by
  rw [Denotes, exists_declares_iff, openDistance, List.findIdx?_eq_some_iff_getElem]
  simp only [not_declares_iff, List.getElem?_eq_some_iff, List.contains_iff_mem]
  constructor
  · rintro ⟨⟨names, ⟨hlt, rfl⟩, hname⟩, hnearer⟩
    exact ⟨hlt, hname, fun nearer h => hnearer nearer h _ ⟨Nat.lt_trans h hlt, rfl⟩⟩
  · rintro ⟨hlt, hname, hnearer⟩
    refine ⟨⟨_, ⟨hlt, rfl⟩, hname⟩, fun nearer h names ⟨_, hnames⟩ => ?_⟩
    rw [← hnames]
    exact hnearer nearer h

theorem denotesNone_iff :
    DenotesNone before name ↔ openDistance (openNames before []) name = none := by
  rw [DenotesNone, openDistance, List.findIdx?_eq_none_iff]
  simp only [not_declares_iff, List.mem_iff_getElem?, List.contains_eq_mem, decide_eq_false_iff_not]
  exact ⟨fun h names ⟨d, hd⟩ => h d names hd, fun h d names hd => h names ⟨d, hd⟩⟩

end

end Lox
