import Lox.Proofs.Parser.Forward
import Lox.Proofs.Syntax.Relabeling

/-!
# Parsing with other identities and lines

The parser looks at the kinds of tokens and at nothing else of them, and it only counts identities. So on
relabeled tokens it goes the same way, and gives the relabeled tree or the errors at the relabeled tokens
(`parseProgram_relabel`, `parseExpression_relabel`). There is one lemma for each primitive, for each way
to put parsers together, and for each rule of the grammar.
-/

namespace Lox.Parser

variable {α β γ δ : Type} {r : Relabeling}

/-! ## Relabeled runs -/

/-- The error at the relabeled token. -/
def relabelError (r : Relabeling) (error : SyntaxError) : SyntaxError :=
  { error with token := r.token error.token }

/-- The state with other identities and lines. -/
def State.relabel (r : Relabeling) (s : State) : State where
  rest := s.rest.map r.token
  ending := r.token s.ending
  nextId := r.id s.nextId
  errors := s.errors.map (relabelError r)

/-- What a run ends with, with other identities and lines. -/
def relabelEnd (r : Relabeling) (f : α → β) :
    EStateM.Result SyntaxError State α → EStateM.Result SyntaxError State β
  | .ok a s => .ok (f a) (s.relabel r)
  | .error error s => .error (relabelError r error) (s.relabel r)

/-- The parser `q` does with relabeled tokens what `p` does, and gives `f` of what `p` gives. -/
def Relabels (r : Relabeling) (f : α → β) (p : Parser α) (q : Parser β) : Prop :=
  ∀ s : State, q (s.relabel r) = relabelEnd r f (p s)

namespace Relabels

variable {f : α → β} {p : Parser α} {q : Parser β}

protected theorem pure (a : α) : Relabels r f (pure a) (pure (f a)) := fun _ => rfl

/-- Parsers go the same way one after the other. -/
protected theorem bind (h : Relabels r f p q) {g : γ → δ} {p' : α → Parser γ} {q' : β → Parser δ}
    (h' : ∀ a, Relabels r g (p' a) (q' (f a))) : Relabels r g (p >>= p') (q >>= q') := by
  intro s
  have first := h s
  cases hp : p s with
  | ok a s' =>
    rw [hp] at first
    rw [bind_ok hp, bind_ok first]
    exact h' a s'
  | error error s' =>
    rw [hp] at first
    rw [bind_error hp, bind_error first]
    rfl

protected theorem map (h : Relabels r f p q) {g : γ → δ} {k : α → γ} {l : β → δ}
    (hk : ∀ a, l (f a) = g (k a)) : Relabels r g (k <$> p) (l <$> q) := by
  refine h.bind fun a => ?_
  show Relabels r g (pure (k a)) (pure (l (f a)))
  rw [hk]
  exact .pure (k a)

protected theorem ite {c : Bool} {p' : Parser α} {q' : Parser β} (h : Relabels r f p q)
    (h' : Relabels r f p' q') : Relabels r f (if c then p else p') (if c then q else q') := by
  cases c
  · exact h'
  · exact h

/-- A look at the state decides how to go on. -/
protected theorem get {p : State → Parser α} {q : State → Parser β}
    (h : ∀ s, q (s.relabel r) (s.relabel r) = relabelEnd r f (p s s)) :
    Relabels r f (get >>= p) (get >>= q) := h

end Relabels

/-! ## Looking at the next token -/

theorem State.here_relabel (s : State) : (s.relabel r).here = r.token s.here := by
  obtain ⟨rest, ending, nextId, errors⟩ := s
  cases rest <;> rfl

theorem State.sees_relabel (s : State) (kind : TokenKind) :
    (s.relabel r).sees kind = s.sees kind := by
  obtain ⟨rest, ending, nextId, errors⟩ := s
  cases rest <;> rfl

theorem State.error_relabel (s : State) (issue : SyntaxIssue) :
    (s.relabel r).error issue = relabelError r (s.error issue) := by
  unfold State.error
  rw [s.here_relabel, State.relabel, List.length_map]
  rfl

theorem here_relabels : Relabels r r.token here here := by
  intro s
  rw [here_run, here_run, s.here_relabel]
  rfl

theorem atEnd_relabels : Relabels r id atEnd atEnd := by
  intro s
  rw [atEnd_run, atEnd_run, State.relabel, List.isEmpty_map]
  rfl

theorem sees_relabels (kind : TokenKind) : Relabels r id (sees kind) (sees kind) := by
  intro s
  rw [sees_run, sees_run, s.sees_relabel]
  rfl

theorem fail_relabels {f : α → β} (issue : SyntaxIssue) : Relabels r f (fail issue) (fail issue) := by
  intro s
  rw [fail_run, fail_run, s.error_relabel]
  rfl

theorem note_relabels (error : SyntaxError) :
    Relabels r id (note error) (note (relabelError r error)) := by
  intro s
  simp [note_run, relabelEnd, State.relabel]

theorem report_relabels (issue : SyntaxIssue) : Relabels r id (report issue) (report issue) := by
  intro s
  rw [report_run, report_run, s.error_relabel]
  exact note_relabels (s.error issue) s

/-! ## Taking tokens -/

theorem skip_relabels : Relabels r id skip skip := by
  intro s
  simp [skip_run, relabelEnd, State.relabel]

theorem acceptIf_relabels {test : Token → Bool} (htest : ∀ token, test (r.token token) = test token) :
    Relabels r (Option.map r.token) (acceptIf test) (acceptIf test) := by
  rintro ⟨rest, ending, nextId, errors⟩
  rw [acceptIf_run, acceptIf_run]
  cases rest with
  | nil => rfl
  | cons token rest =>
    simp only [State.relabel, List.map_cons, htest]
    split <;> rfl

theorem accept_relabels (kind : TokenKind) : Relabels r id (accept kind) (accept kind) :=
  (sees_relabels kind).bind fun _ =>
    .ite (skip_relabels.bind fun _ => .pure true) (.pure false)

theorem expect_relabels (kind : TokenKind) (what : Expectation) :
    Relabels r r.token (expect kind what) (expect kind what) :=
  (sees_relabels kind).bind fun _ =>
    .ite (here_relabels.bind fun token => skip_relabels.bind fun _ => .pure token)
      (fail_relabels _)

theorem acceptWhile_relabels {test : Token → Bool}
    (htest : ∀ token, test (r.token token) = test token) :
    Relabels r (List.map r.token) (acceptWhile test) (acceptWhile test) := by
  intro s
  have same : test ∘ r.token = test := funext htest
  simp [acceptWhile_run, relabelEnd, State.relabel, List.takeWhile_map, List.dropWhile_map, same]

theorem freshId_relabels (hr : r.IsSteady) : Relabels r r.id freshId freshId := by
  intro s
  rw [freshId_run, freshId_run]
  simp only [relabelEnd, State.relabel, hr s.nextId]

/-! ## Loops -/

section

variable {f : α → β}

theorem iterateAlong_relabels {step : α → Parser (Option α)} {step' : β → Parser (Option β)}
    (h : ∀ a, Relabels r (Option.map f) (step a) (step' (f a))) (left : List Token) (a : α) :
    Relabels r f (iterateAlong step left a) (iterateAlong step' (left.map r.token) (f a)) := by
  induction left generalizing a with
  | nil => exact .pure a
  | cons _ left ih =>
    refine (h a).bind fun b => ?_
    cases b with
    | none => exact .pure a
    | some b => exact ih b

theorem iterate_relabels {step : α → Parser (Option α)} {step' : β → Parser (Option β)}
    (h : ∀ a, Relabels r (Option.map f) (step a) (step' (f a))) (a : α) :
    Relabels r f (iterate step a) (iterate step' (f a)) :=
  .get fun s => iterateAlong_relabels h s.rest a s

theorem collectAlong_relabels {step : Nat → Parser (Option α)} {step' : Nat → Parser (Option β)}
    (h : ∀ i, Relabels r (Option.map f) (step i) (step' i)) (left : List Token) (i : Nat) :
    Relabels r (List.map f) (collectAlong step left i)
      (collectAlong step' (left.map r.token) i) := by
  induction left generalizing i with
  | nil => exact .pure []
  | cons _ left ih =>
    refine (h i).bind fun a => ?_
    cases a with
    | none => exact .pure []
    | some a => exact (ih (i + 1)).bind fun more => .pure (a :: more)

theorem collect_relabels {step : Nat → Parser (Option α)} {step' : Nat → Parser (Option β)}
    (h : ∀ i, Relabels r (Option.map f) (step i) (step' i)) :
    Relabels r (List.map f) (collect step) (collect step') :=
  .get fun s => collectAlong_relabels h s.rest 0 s

variable {item : Parser α} {item' : Parser β}

theorem commaSeparated_relabels (issue : SyntaxIssue) (h : Relabels r f item item') :
    Relabels r (List.map f) (commaSeparated issue item) (commaSeparated issue item') := by
  have numbered (i : Nat) :
      Relabels r f
        (do
          if maxArguments ≤ i then report issue
          item)
        (do
          if maxArguments ≤ i then report issue
          item') := by
    by_cases hi : maxArguments ≤ i
    · simp only [if_pos hi]
      exact (report_relabels issue).bind fun _ => h
    · simp only [if_neg hi]
      exact h
  refine (numbered 0).bind fun first => ?_
  refine (collect_relabels fun i => ?_).bind fun more => .pure (first :: more)
  refine (accept_relabels _).bind fun comma => ?_
  cases comma
  · exact .pure none
  · exact (numbered (i + 1)).bind fun a => .pure (some a)

theorem listed_relabels (issue : SyntaxIssue) (h : Relabels r f item item') :
    Relabels r (List.map f) (listed issue item) (listed issue item') :=
  (sees_relabels _).bind fun _ => .ite (.pure []) (commaSeparated_relabels issue h)

end

/-! ## Recovery -/

theorem fromBoundary_relabel (previous : Token) (tokens : List Token) :
    fromBoundary (r.token previous) (tokens.map r.token) =
      (fromBoundary previous tokens).map r.token := by
  induction tokens generalizing previous with
  | nil => rfl
  | cons token rest ih =>
    have same : startsStatement (r.token token) = startsStatement token := rfl
    simp only [List.map_cons, fromBoundary, ih, same, Relabeling.kind_token]
    split <;> rfl

theorem afterOffence_relabel (tokens : List Token) :
    afterOffence (tokens.map r.token) = (afterOffence tokens).map r.token := by
  cases tokens with
  | nil => rfl
  | cons offending rest => exact fromBoundary_relabel offending rest

theorem recovering_relabels {f : α → β} {p : Parser α} {q : Parser β} (h : Relabels r f p q) :
    Relabels r (Option.map f) (recovering p) (recovering q) := by
  intro s
  unfold recovering
  rw [h s]
  cases p s with
  | ok a s' => rfl
  | error error s' =>
    simp [relabelEnd, State.relabel, afterOffence_relabel]

/-! ## Expressions -/

section

variable {e : Parser Expr}

theorem leaf_relabels (tree : Expr) :
    Relabels r (Expr.relabel r) (leaf tree) (leaf (tree.relabel r)) :=
  skip_relabels.bind fun _ => .pure tree

theorem extend_relabels {tier : Tier} (htier : tier.Relabels) (he : Relabels r (Expr.relabel r) e e)
    (left : Expr) :
    Relabels r (Option.map (Expr.relabel r)) (tier.extend e left)
      (tier.extend e (left.relabel r)) := by
  refine (acceptIf_relabels fun _ => rfl).bind fun operator => ?_
  cases operator with
  | none => exact .pure none
  | some operator =>
    refine he.bind fun right => ?_
    show Relabels r _ _ (pure (some (tier.node ..)))
    rw [← htier]
    exact .pure (some (tier.node left operator right))

theorem climb_relabels (he : Relabels r (Expr.relabel r) e e) (tiers : List Tier)
    (htiers : ∀ tier ∈ tiers, tier.Relabels) :
    Relabels r (Expr.relabel r) (climb e tiers) (climb e tiers) := by
  induction tiers with
  | nil => exact he
  | cons tier tighter ih =>
    obtain ⟨htier, htighter⟩ := List.forall_mem_cons.mp htiers
    refine (ih htighter).bind fun left => ?_
    exact iterate_relabels (extend_relabels htier (ih htighter)) left

theorem primary_relabels (hr : r.IsSteady) (he : Relabels r (Expr.relabel r) e e) :
    Relabels r (Expr.relabel r) (primary e) (primary e) := by
  refine here_relabels.bind fun token => ?_
  rw [Relabeling.kind_token]
  split
  · exact leaf_relabels _
  · exact leaf_relabels _
  · exact leaf_relabels _
  · exact leaf_relabels _
  · exact leaf_relabels _
  · exact (freshId_relabels hr).bind fun id => leaf_relabels (.this id token)
  · exact (freshId_relabels hr).bind fun id => leaf_relabels (.var id token)
  · refine skip_relabels.bind fun _ => he.bind fun inner => ?_
    exact (expect_relabels _ _).bind fun _ => .pure (Expr.grouping inner)
  · exact fail_relabels _

theorem application_relabels (he : Relabels r (Expr.relabel r) e e) (callee : Expr) :
    Relabels r (Option.map (Expr.relabel r)) (application e callee)
      (application e (callee.relabel r)) := by
  refine (accept_relabels _).bind fun opening => .ite ?_ ?_
  · refine (listed_relabels _ he).bind fun arguments => ?_
    refine (expect_relabels _ _).bind fun paren => ?_
    rw [← Expr.relabelAll_eq_map]
    exact .pure (some (Expr.call callee paren arguments))
  · refine (accept_relabels _).bind fun dot => .ite ?_ (.pure none)
    exact (expect_relabels _ _).bind fun name => .pure (some (Expr.get callee name))

theorem applied_relabels (hr : r.IsSteady) (he : Relabels r (Expr.relabel r) e e) :
    Relabels r (Expr.relabel r) (applied e) (applied e) :=
  (primary_relabels hr he).bind fun callee => iterate_relabels (application_relabels he) callee

theorem foldr_unary_relabel (operators : List Token) (e : Expr) :
    (operators.map r.token).foldr Expr.unary (e.relabel r) =
      (operators.foldr Expr.unary e).relabel r := by
  induction operators with
  | nil => rfl
  | cons operator operators ih => simp only [List.map_cons, List.foldr_cons, ih, Expr.relabel]

theorem prefixed_relabels (hr : r.IsSteady) (he : Relabels r (Expr.relabel r) e e) :
    Relabels r (Expr.relabel r) (prefixed e) (prefixed e) := by
  refine (acceptWhile_relabels fun _ => rfl).bind fun operators => ?_
  refine (applied_relabels hr he).bind fun operand => ?_
  rw [foldr_unary_relabel]
  exact .pure (operators.foldr Expr.unary operand)

theorem assignmentTo_relabels (hr : r.IsSteady) (target : Expr) (error : SyntaxError)
    (value : Expr) :
    Relabels r (Expr.relabel r) (assignmentTo target error value)
      (assignmentTo (target.relabel r) (relabelError r error) (value.relabel r)) := by
  have other (e : Expr) : Relabels r (Expr.relabel r) (do note error; return e)
      (do note (relabelError r error); return e.relabel r) :=
    (note_relabels error).bind fun _ => .pure e
  cases target with
  | var id name => exact (freshId_relabels hr).bind fun id => .pure (Expr.assign id name value)
  | get object name => exact .pure (Expr.set object name value)
  | _ => exact other _

theorem assignment_relabels (hr : r.IsSteady) (he : Relabels r (Expr.relabel r) e e) :
    Relabels r (Expr.relabel r) (assignment e) (assignment e) := by
  refine (climb_relabels (prefixed_relabels hr he) _ tiers_relabel).bind fun target => .get ?_
  intro s
  rw [s.error_relabel]
  refine (accept_relabels _).bind (fun equal => .ite ?_ (.pure target)) s
  exact he.bind fun value => assignmentTo_relabels hr target (s.error .invalidTarget) value

theorem expressionUpTo_relabels (hr : r.IsSteady) (depth : Nat) :
    Relabels r (Expr.relabel r) (expressionUpTo depth) (expressionUpTo depth) := by
  induction depth with
  | zero => exact fail_relabels _
  | succ depth ih => exact assignment_relabels hr ih

theorem expression_relabels (hr : r.IsSteady) :
    Relabels r (Expr.relabel r) expression expression := by
  refine .get fun s => ?_
  rw [State.relabel, List.length_map]
  exact expressionUpTo_relabels hr _ s

theorem loneExpression_relabels (hr : r.IsSteady) :
    Relabels r (Expr.relabel r) loneExpression loneExpression :=
  (expression_relabels hr).bind fun tree =>
    atEnd_relabels.bind fun _ => .ite (.pure tree) (fail_relabels _)

theorem some_relabels (hr : r.IsSteady) :
    Relabels r (Option.map (Expr.relabel r)) (some <$> expression) (some <$> expression) :=
  (expression_relabels hr).map fun _ => rfl

/-- An expression that is there under a condition. -/
theorem when_relabels (hr : r.IsSteady) {g : γ → δ} {p : Option Expr → Parser γ}
    {q : Option Expr → Parser δ}
    (h : ∀ value, Relabels r g (p value) (q (value.map (Expr.relabel r)))) (c : Bool) :
    Relabels r g
      (if c then (do let value ← some <$> expression; p value)
        else (do let value ← pure none; p value))
      (if c then (do let value ← some <$> expression; q value)
        else (do let value ← pure none; q value)) :=
  .ite ((some_relabels hr).bind h) (.bind (.pure none) h)

/-- An expression that is missing under a condition. -/
theorem unless_relabels (hr : r.IsSteady) {g : γ → δ} {p : Option Expr → Parser γ}
    {q : Option Expr → Parser δ}
    (h : ∀ value, Relabels r g (p value) (q (value.map (Expr.relabel r)))) (c : Bool) :
    Relabels r g
      (if c then (do let value ← pure none; p value)
        else (do let value ← some <$> expression; p value))
      (if c then (do let value ← pure none; q value)
        else (do let value ← some <$> expression; q value)) :=
  .ite (.bind (.pure none) h) ((some_relabels hr).bind h)

end

/-! ## Statements -/

section

variable {st : Parser Stmt} {d : Parser (Option Stmt)}

/-- Items up to a closing brace or the end. -/
theorem inside_relabels {f : α → β} {p : Parser α} {q : Parser β} (h : Relabels r f p q) :
    Relabels r (List.map f)
      (collect fun _ => insideStep p) (collect fun _ => insideStep q) := by
  refine collect_relabels fun _ => (sees_relabels _).bind fun _ => atEnd_relabels.bind fun _ => ?_
  exact .ite (.pure none) (h.bind fun a => .pure (some a))

theorem filterMap_relabel (read : List (Option Stmt)) :
    (read.map (Option.map (Stmt.relabel r))).filterMap id =
      Stmt.relabelAll r (read.filterMap id) := by
  rw [Stmt.relabelAll_eq_map, List.filterMap_map, List.map_filterMap]
  rfl

theorem block_relabels (hd : Relabels r (Option.map (Stmt.relabel r)) d d) :
    Relabels r (Stmt.relabelAll r) (block d) (block d) := by
  refine Relabels.bind (f := Stmt.relabelAll r) ?_ fun statements =>
    (expect_relabels _ _).bind fun _ => .pure statements
  refine (inside_relabels hd).bind fun read => ?_
  rw [filterMap_relabel]
  exact .pure (read.filterMap id)

theorem routine_relabels (hd : Relabels r (Option.map (Stmt.relabel r)) d d) (kind : Routine) :
    Relabels r (FunctionDecl.relabel r) (routine kind d) (routine kind d) := by
  refine (expect_relabels _ _).bind fun name => (expect_relabels _ _).bind fun _ => ?_
  refine (listed_relabels _ (expect_relabels _ _)).bind fun params => ?_
  refine (expect_relabels _ _).bind fun _ => (expect_relabels _ _).bind fun _ => ?_
  exact (block_relabels hd).bind fun body => .pure (FunctionDecl.mk name params body)

theorem classDeclaration_relabels (hd : Relabels r (Option.map (Stmt.relabel r)) d d) :
    Relabels r (Stmt.relabel r) (classDeclaration d) (classDeclaration d) := by
  refine (expect_relabels _ _).bind fun name => (expect_relabels _ _).bind fun _ => ?_
  refine (inside_relabels (routine_relabels hd .method)).bind fun methods => ?_
  refine (expect_relabels _ _).bind fun _ => ?_
  rw [← FunctionDecl.relabelAll_eq_map]
  exact .pure (Stmt.classDecl name methods)

theorem varDeclaration_relabels (hr : r.IsSteady) :
    Relabels r (Stmt.relabel r) varDeclaration varDeclaration := by
  refine (expect_relabels _ _).bind fun name => (accept_relabels _).bind fun equal => ?_
  refine when_relabels hr (fun initializer => ?_) equal
  exact (expect_relabels _ _).bind fun _ => .pure (Stmt.varDecl name initializer)

theorem expressionStatement_relabels (hr : r.IsSteady) :
    Relabels r (Stmt.relabel r) expressionStatement expressionStatement :=
  (expression_relabels hr).bind fun value =>
    (expect_relabels _ _).bind fun _ => .pure (Stmt.expression value)

theorem printStatement_relabels (hr : r.IsSteady) :
    Relabels r (Stmt.relabel r) printStatement printStatement :=
  (expression_relabels hr).bind fun value =>
    (expect_relabels _ _).bind fun _ => .pure (Stmt.print value)

theorem returnStatement_relabels (hr : r.IsSteady) (keyword : Token) :
    Relabels r (Stmt.relabel r) (returnStatement keyword) (returnStatement (r.token keyword)) := by
  refine (sees_relabels _).bind fun bare => unless_relabels hr (fun value => ?_) bare
  exact (expect_relabels _ _).bind fun _ => .pure (Stmt.returns keyword value)

theorem ifStatement_relabels (hr : r.IsSteady) (hst : Relabels r (Stmt.relabel r) st st) :
    Relabels r (Stmt.relabel r) (ifStatement st) (ifStatement st) := by
  refine (expect_relabels _ _).bind fun _ => (expression_relabels hr).bind fun condition => ?_
  refine (expect_relabels _ _).bind fun _ => hst.bind fun thenBranch => ?_
  refine (accept_relabels _).bind fun _ => .ite ?_ (.pure (Stmt.ifThen condition thenBranch))
  exact hst.bind fun elseBranch => .pure (Stmt.ifElse condition thenBranch elseBranch)

theorem whileStatement_relabels (hr : r.IsSteady) (hst : Relabels r (Stmt.relabel r) st st) :
    Relabels r (Stmt.relabel r) (whileStatement st) (whileStatement st) := by
  refine (expect_relabels _ _).bind fun _ => (expression_relabels hr).bind fun condition => ?_
  refine (expect_relabels _ _).bind fun _ => hst.bind fun body => ?_
  exact .pure (Stmt.whileLoop condition body)

theorem forInitializer_relabels (hr : r.IsSteady) :
    Relabels r (Option.map (Stmt.relabel r)) forInitializer forInitializer := by
  refine (accept_relabels _).bind fun _ => .ite (.pure none) ?_
  refine (accept_relabels _).bind fun _ => .ite ?_ ?_
  · exact (varDeclaration_relabels hr).bind fun t => .pure (some t)
  · exact (expressionStatement_relabels hr).bind fun t => .pure (some t)

theorem forStatement_relabels (hr : r.IsSteady) (hst : Relabels r (Stmt.relabel r) st st) :
    Relabels r (Stmt.relabel r) (forStatement st) (forStatement st) := by
  refine (expect_relabels _ _).bind fun _ => (forInitializer_relabels hr).bind fun first => ?_
  refine (sees_relabels _).bind fun bare => unless_relabels hr (fun condition => ?_) bare
  refine (expect_relabels _ _).bind fun _ => ?_
  refine (sees_relabels _).bind fun bare => unless_relabels hr (fun step => ?_) bare
  refine (expect_relabels _ _).bind fun _ => hst.bind fun body => ?_
  rw [← Stmt.relabel_forLoop]
  exact .pure (Stmt.forLoop first condition step body)

theorem statementRule_relabels (hr : r.IsSteady) (hst : Relabels r (Stmt.relabel r) st st)
    (hd : Relabels r (Option.map (Stmt.relabel r)) d d) :
    Relabels r (Stmt.relabel r) (statementRule st d) (statementRule st d) := by
  refine here_relabels.bind fun token => ?_
  refine (accept_relabels _).bind fun _ => .ite (forStatement_relabels hr hst) ?_
  refine (accept_relabels _).bind fun _ => .ite (ifStatement_relabels hr hst) ?_
  refine (accept_relabels _).bind fun _ => .ite (whileStatement_relabels hr hst) ?_
  refine (accept_relabels _).bind fun _ => .ite (returnStatement_relabels hr token) ?_
  refine (accept_relabels _).bind fun _ => .ite ?_ ?_
  · exact (block_relabels hd).bind fun body => .pure (Stmt.block body)
  refine (accept_relabels _).bind fun _ => .ite (printStatement_relabels hr) ?_
  exact expressionStatement_relabels hr

theorem declarationRule_relabels (hr : r.IsSteady) (hst : Relabels r (Stmt.relabel r) st st)
    (hd : Relabels r (Option.map (Stmt.relabel r)) d d) :
    Relabels r (Option.map (Stmt.relabel r)) (declarationRule st d) (declarationRule st d) := by
  refine recovering_relabels ?_
  refine (accept_relabels _).bind fun _ => .ite (classDeclaration_relabels hd) ?_
  refine (accept_relabels _).bind fun _ => .ite ?_ ?_
  · exact (routine_relabels hd .function).bind fun f => .pure (Stmt.funDecl f)
  exact (accept_relabels _).bind fun _ => .ite (varDeclaration_relabels hr) hst

end

/-! ## Programs -/

theorem upTo_relabels (hr : r.IsSteady) (depth : Nat) :
    Relabels r (Stmt.relabel r) (statementUpTo depth) (statementUpTo depth) ∧
      Relabels r (Option.map (Stmt.relabel r)) (declarationUpTo depth) (declarationUpTo depth) := by
  induction depth with
  | zero => exact ⟨fail_relabels _, .pure none⟩
  | succ depth ih =>
    obtain ⟨hst, hd⟩ := ih
    have rule := statementRule_relabels hr hst hd
    exact ⟨rule, declarationRule_relabels hr rule hd⟩

theorem declaration_relabels (hr : r.IsSteady) :
    Relabels r (Option.map (Stmt.relabel r)) declaration declaration := by
  refine .get fun s => ?_
  rw [State.relabel, List.length_map]
  exact (upTo_relabels hr _).2 s

theorem program_relabels (hr : r.IsSteady) : Relabels r (Stmt.relabelAll r) program program := by
  have step : Relabels r (Option.map (Option.map (Stmt.relabel r)))
      (do if ← atEnd then return none else return some (← declaration))
      (do if ← atEnd then return none else return some (← declaration)) :=
    atEnd_relabels.bind fun _ =>
      .ite (.pure none) ((declaration_relabels hr).bind fun t => .pure (some t))
  refine (collect_relabels fun _ => step).bind fun read => ?_
  rw [filterMap_relabel]
  exact .pure (read.filterMap id)

/-! ## Runs on lists of tokens -/

/-- What is made of a list of tokens, with other identities and lines. -/
def Outcome.relabel (r : Relabeling) (f : α → β) (outcome : Outcome α) : Outcome β where
  result := match outcome.result with
    | .ok a => .ok (f a)
    | .error errors => .error (errors.map (relabelError r))
  nextId := r.id outcome.nextId

theorem start_relabel (n : OccurrenceId) {tokens : List Token}
    (htokens : ∃ token ∈ tokens, token.kind = .eof) :
    (State.start n tokens).relabel r = State.start (r.id n) (tokens.map r.token) := by
  have kinds (test : TokenKind → Bool) :
      (fun token : Token => test token.kind) ∘ r.token = fun token => test token.kind := rfl
  obtain ⟨token, hmem, hkind⟩ := htokens
  obtain ⟨ending, hending⟩ : ∃ ending, tokens.find? (·.kind == .eof) = some ending :=
    Option.isSome_iff_exists.mp (List.find?_isSome.mpr ⟨token, hmem, by simp [hkind]⟩)
  simp only [State.start, State.relabel, List.takeWhile_map, List.find?_map, kinds (· != .eof),
    kinds (· == .eof), hending]
  rfl

theorem run_relabel {f : α → β} {p : Parser α} {q : Parser β} (h : Relabels r f p q)
    (n : OccurrenceId) {tokens : List Token} (htokens : ∃ token ∈ tokens, token.kind = .eof) :
    q.run (r.id n) (tokens.map r.token) = (p.run n tokens).relabel r f := by
  unfold Parser.run
  rw [← start_relabel n htokens, h]
  cases p (State.start n tokens) with
  | ok a s =>
    simp only [relabelEnd, Outcome.relabel, State.relabel, List.isEmpty_map]
    cases s.errors.isEmpty <;> rfl
  | error error s => simp [relabelEnd, Outcome.relabel, State.relabel]

end Lox.Parser

namespace Lox

variable {r : Relabeling}

/-- Relabeled tokens are parsed to the relabeled program, or to the relabeled errors. -/
theorem parseProgram_relabel (hr : r.IsSteady) (n : OccurrenceId) {tokens : List Token}
    (htokens : ∃ token ∈ tokens, token.kind = .eof) :
    parseProgram (r.id n) (tokens.map r.token) =
      (parseProgram n tokens).relabel r (Stmt.relabelAll r) :=
  Parser.run_relabel (Parser.program_relabels hr) n htokens

/-- Relabeled tokens are parsed to the relabeled expression, or to the relabeled errors. -/
theorem parseExpression_relabel (hr : r.IsSteady) (n : OccurrenceId) {tokens : List Token}
    (htokens : ∃ token ∈ tokens, token.kind = .eof) :
    parseExpression (r.id n) (tokens.map r.token) =
      (parseExpression n tokens).relabel r (Expr.relabel r) :=
  Parser.run_relabel (Parser.loneExpression_relabels hr) n htokens

end Lox
