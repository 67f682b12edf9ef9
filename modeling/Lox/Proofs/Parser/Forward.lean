import Lox.Syntax.Parser.Statement
import Mathlib.Data.List.Infix

/-!
# A parser only goes forward

Whatever comes of a parser, it has taken tokens from the front, kept the end of the source, added to
the errors and given out identities. `State.Leads` says so of two states, and a parser that relates
every state to its last one is `Forward`. All parsers of the library are.

The use of it is in taking a run apart. A parser *gives* a tree if it succeeds and notes no error. A
sequence of forward parsers that gives something does so step by step (`bind_gives`), since an error
that one step noted would still be there at the end.
-/

namespace Lox.Parser

variable {α β : Type}

/-! ## States in their order -/

/-- `s'` is a state that a parser can reach from `s`. -/
structure State.Leads (s s' : State) : Prop where
  rest : s'.rest <:+ s.rest
  ending : s'.ending = s.ending
  errors : s.errors <+: s'.errors
  nextId : s.nextId ≤ s'.nextId

theorem State.Leads.refl (s : State) : s.Leads s :=
  ⟨List.suffix_refl _, rfl, List.prefix_refl _, Nat.le_refl _⟩

theorem State.Leads.trans {s₁ s₂ s₃ : State} (h : s₁.Leads s₂) (h' : s₂.Leads s₃) :
    s₁.Leads s₃ :=
  ⟨h'.rest.trans h.rest, h'.ending.trans h.ending, h.errors.trans h'.errors,
    h.nextId.trans h'.nextId⟩

/-- The state in which a run ends, whatever comes of it. -/
def last : EStateM.Result SyntaxError State α → State
  | .ok _ s => s
  | .error _ s => s

/-- Every run of the parser leads forward. -/
class Forward (p : Parser α) : Prop where
  leads : ∀ s : State, s.Leads (last (p s))

theorem Forward.of_ok {p : Parser α} [Forward p] {s s' : State} {a : α} (h : p s = .ok a s') :
    s.Leads s' := by
  have := Forward.leads (p := p) s
  rwa [h] at this

theorem Forward.of_error {p : Parser α} [Forward p] {s s' : State} {e : SyntaxError}
    (h : p s = .error e s') : s.Leads s' := by
  have := Forward.leads (p := p) s
  rwa [h] at this

/-! ## Sequences -/

theorem bind_ok {x : Parser α} {f : α → Parser β} {s s' : State} {a : α} (h : x s = .ok a s') :
    (x >>= f) s = f a s' := by
  show EStateM.bind x f s = _
  rw [EStateM.bind, h]

theorem bind_error {x : Parser α} {f : α → Parser β} {s s' : State} {e : SyntaxError}
    (h : x s = .error e s') : (x >>= f) s = .error e s' := by
  show EStateM.bind x f s = _
  rw [EStateM.bind, h]

theorem bind_eq_ok {x : Parser α} {f : α → Parser β} {s s'' : State} {b : β}
    (h : (x >>= f) s = .ok b s'') : ∃ a s', x s = .ok a s' ∧ f a s' = .ok b s'' := by
  cases hx : x s with
  | ok a s' => exact ⟨a, s', rfl, (bind_ok hx).symm.trans h⟩
  | error e s' => rw [bind_error hx] at h; cases h

instance forward_pure (a : α) : Forward (pure a : Parser α) := ⟨fun s => .refl s⟩

instance forward_bind (x : Parser α) (f : α → Parser β) [hx : Forward x]
    [hf : ∀ a, Forward (f a)] : Forward (x >>= f) where
  leads s := by
    have first := hx.leads s
    cases h : x s with
    | ok a s' =>
      rw [h] at first
      rw [bind_ok h]
      exact first.trans ((hf a).leads s')
    | error e s' =>
      rw [h] at first
      rwa [bind_error h]

instance forward_map (f : α → β) (x : Parser α) [Forward x] : Forward (f <$> x) :=
  inferInstanceAs (Forward (x >>= fun a => pure (f a)))

instance forward_ite (c : Prop) [Decidable c] (x y : Parser α) [Forward x] [Forward y] :
    Forward (if c then x else y) := by
  split <;> infer_instance

/-! ## Steps -/

/-- Behind a step that may decline, one of two parsers goes on. -/
theorem forward_option {x : Parser β} {f : α → Parser β} (hx : Forward x) (hf : ∀ a, Forward (f a))
    (o : Option α) : Forward (match o with | none => x | some a => f a) := by
  cases o with
  | none => exact hx
  | some a => exact hf a

instance forward_get : Forward (get : Parser State) := ⟨fun s => .refl s⟩

instance forward_throw (e : SyntaxError) : Forward (throw e : Parser α) := ⟨fun s => .refl s⟩

theorem get_run (s : State) : (get : Parser State) s = .ok s s := rfl

theorem here_run (s : State) : here s = .ok s.here s := rfl

theorem atEnd_run (s : State) : atEnd s = .ok s.rest.isEmpty s := rfl

theorem sees_run (kind : TokenKind) (s : State) : sees kind s = .ok (s.sees kind) s := rfl

theorem fail_run (issue : SyntaxIssue) (s : State) :
    (fail issue : Parser α) s = .error (s.error issue) s := rfl

theorem note_run (error : SyntaxError) (s : State) :
    note error s = .ok () { s with errors := s.errors ++ [error] } := rfl

theorem report_run (issue : SyntaxIssue) (s : State) :
    report issue s = .ok () { s with errors := s.errors ++ [s.error issue] } := rfl

theorem skip_run (s : State) : skip s = .ok () { s with rest := s.rest.tail } := rfl

theorem freshId_run (s : State) :
    freshId s = .ok s.nextId { s with nextId := s.nextId + 1 } := rfl

theorem acceptWhile_run (test : Token → Bool) (s : State) :
    acceptWhile test s =
      .ok (s.rest.takeWhile test) { s with rest := s.rest.dropWhile test } := rfl

theorem accept_run (kind : TokenKind) (s : State) :
    accept kind s =
      if s.sees kind then .ok true { s with rest := s.rest.tail } else .ok false s := by
  unfold accept
  rw [bind_ok (sees_run kind s)]
  split <;> rfl

theorem expect_run (kind : TokenKind) (what : Expectation) (s : State) :
    expect kind what s =
      if s.sees kind then .ok s.here { s with rest := s.rest.tail }
      else .error (s.error (.expected what)) s := by
  unfold expect
  rw [bind_ok (sees_run kind s)]
  split <;> rfl

theorem acceptIf_run (test : Token → Bool) (s : State) :
    acceptIf test s =
      match s.rest with
      | [] => .ok none s
      | token :: rest =>
        if test token then .ok (some token) { s with rest := rest } else .ok none s := by
  unfold acceptIf
  rw [bind_ok (get_run s)]
  cases h : s.rest with
  | nil => rfl
  | cons token rest =>
    dsimp only
    by_cases ht : test token = true
    · rw [if_pos ht, if_pos ht, bind_ok (skip_run s), h]
      rfl
    · rw [if_neg ht, if_neg ht]
      rfl

/-- Only the errors and the identities change, and the tokens are taken from the front. -/
private theorem leads_rest (s : State) {rest : List Token} (h : rest <:+ s.rest) :
    s.Leads { s with rest := rest } :=
  ⟨h, rfl, List.prefix_refl _, Nat.le_refl _⟩

instance forward_here : Forward here := ⟨fun s => .refl s⟩

instance forward_atEnd : Forward atEnd := ⟨fun s => .refl s⟩

instance forward_sees (kind : TokenKind) : Forward (sees kind) := ⟨fun s => .refl s⟩

instance forward_fail (issue : SyntaxIssue) : Forward (fail issue : Parser α) :=
  ⟨fun s => .refl s⟩

instance forward_note (error : SyntaxError) : Forward (note error) :=
  ⟨fun _ => ⟨List.suffix_refl _, rfl, List.prefix_append _ _, Nat.le_refl _⟩⟩

instance forward_report (issue : SyntaxIssue) : Forward (report issue) :=
  ⟨fun _ => ⟨List.suffix_refl _, rfl, List.prefix_append _ _, Nat.le_refl _⟩⟩

instance forward_skip : Forward skip := ⟨fun s => leads_rest s (List.tail_suffix _)⟩

instance forward_freshId : Forward freshId :=
  ⟨fun _ => ⟨List.suffix_refl _, rfl, List.prefix_refl _, Nat.le_succ _⟩⟩

instance forward_acceptWhile (test : Token → Bool) : Forward (acceptWhile test) :=
  ⟨fun s => leads_rest s (List.dropWhile_suffix _)⟩

instance forward_accept (kind : TokenKind) : Forward (accept kind) :=
  inferInstanceAs (Forward (sees kind >>= fun b => if b then _ else _))

instance forward_expect (kind : TokenKind) (what : Expectation) : Forward (expect kind what) :=
  inferInstanceAs (Forward (sees kind >>= fun b => if b then _ else _))

instance forward_expectMark (mark : Symbol) (place : MarkPlace) :
    Forward (expectMark mark place) :=
  forward_expect _ _

instance forward_acceptIf (test : Token → Bool) : Forward (acceptIf test) where
  leads s := by
    rw [acceptIf_run]
    split
    · exact .refl s
    · next token rest h =>
      split
      · exact leads_rest s (h ▸ List.suffix_cons _ _)
      · exact .refl s

/-! ## Loops -/

instance forward_iterateAlong (step : α → Parser (Option α)) [h : ∀ a, Forward (step a)]
    (left : List Token) (a : α) : Forward (iterateAlong step left a) := by
  induction left generalizing a with
  | nil => exact inferInstanceAs (Forward (pure a : Parser α))
  | cons _ left ih =>
    unfold iterateAlong
    refine @forward_bind _ _ _ _ (h a) ?_
    rintro (_ | b)
    · exact forward_pure a
    · exact ih b

instance forward_iterate (step : α → Parser (Option α)) [∀ a, Forward (step a)] (a : α) :
    Forward (iterate step a) :=
  inferInstanceAs (Forward (get >>= fun s => iterateAlong step s.rest a))

instance forward_collectAlong (step : Nat → Parser (Option α)) [h : ∀ i, Forward (step i)]
    (left : List Token) (index : Nat) : Forward (collectAlong step left index) := by
  induction left generalizing index with
  | nil => exact inferInstanceAs (Forward (pure [] : Parser (List α)))
  | cons _ left ih =>
    unfold collectAlong
    refine @forward_bind _ _ _ _ (h index) ?_
    rintro (_ | a)
    · exact forward_pure []
    · exact @forward_bind _ _ _ _ (ih (index + 1)) fun _ => forward_pure _

instance forward_collect (step : Nat → Parser (Option α)) [∀ i, Forward (step i)] :
    Forward (collect step) :=
  inferInstanceAs (Forward (get >>= fun s => collectAlong step s.rest 0))

instance forward_commaSeparated (issue : SyntaxIssue) (item : Parser α) [Forward item] :
    Forward (commaSeparated issue item) := by
  unfold commaSeparated
  dsimp only
  infer_instance

instance forward_listed (issue : SyntaxIssue) (item : Parser α) [Forward item] :
    Forward (listed issue item) :=
  inferInstanceAs (Forward (sees _ >>= fun b => if b then _ else _))

theorem fromBoundary_suffix (previous : Token) (tokens : List Token) :
    fromBoundary previous tokens <:+ tokens := by
  induction tokens generalizing previous with
  | nil => exact List.suffix_refl _
  | cons token rest ih =>
    rw [fromBoundary]
    split
    · exact List.suffix_refl _
    · exact (ih token).trans (List.suffix_cons _ _)

theorem afterOffence_suffix (tokens : List Token) : afterOffence tokens <:+ tokens := by
  cases tokens with
  | nil => exact List.suffix_refl _
  | cons offending rest => exact (fromBoundary_suffix offending rest).trans (List.suffix_cons _ _)

instance forward_recovering (p : Parser α) [Forward p] : Forward (recovering p) where
  leads s := by
    unfold recovering
    split
    · next h => exact Forward.of_ok h
    · next error s' h =>
      have before := Forward.of_error h
      exact before.trans
        ⟨afterOffence_suffix s'.rest, rfl, List.prefix_append _ _, Nat.le_refl _⟩

/-! ## The rules of the grammar -/

instance forward_leaf (tree : Expr) : Forward (leaf tree) :=
  inferInstanceAs (Forward (skip >>= fun _ => pure tree))

instance forward_extend (tier : Tier) (operand : Parser Expr) [Forward operand] (left : Expr) :
    Forward (tier.extend operand left) := by
  refine @forward_bind _ _ _ _ (forward_acceptIf _) ?_
  rintro (_ | operator)
  · exact forward_pure none
  · exact @forward_bind _ _ _ _ inferInstance fun _ => forward_pure _

instance forward_climb (operand : Parser Expr) [h : Forward operand] (tiers : List Tier) :
    Forward (climb operand tiers) := by
  induction tiers with
  | nil => exact h
  | cons tier tighter ih =>
    unfold climb
    infer_instance

instance forward_primary (e : Parser Expr) [Forward e] : Forward (primary e) := by
  refine @forward_bind _ _ _ _ forward_here fun token => ?_
  split <;> infer_instance

instance forward_application (e : Parser Expr) [Forward e] (callee : Expr) :
    Forward (application e callee) := by
  unfold application
  infer_instance

instance forward_applied (e : Parser Expr) [Forward e] : Forward (applied e) := by
  unfold applied
  infer_instance

instance forward_prefixed (e : Parser Expr) [Forward e] : Forward (prefixed e) := by
  unfold prefixed
  infer_instance

instance forward_assignmentTo (target : Expr) (error : SyntaxError) (value : Expr) :
    Forward (assignmentTo target error value) := by
  unfold assignmentTo
  split <;> infer_instance

instance forward_assignment (e : Parser Expr) [Forward e] : Forward (assignment e) := by
  unfold assignment
  infer_instance

instance forward_expressionUpTo (depth : Nat) : Forward (expressionUpTo depth) := by
  induction depth with
  | zero => exact inferInstanceAs (Forward (fail _))
  | succ depth ih => exact inferInstanceAs (Forward (assignment (expressionUpTo depth)))

instance forward_expression : Forward expression := by
  unfold expression
  infer_instance

instance forward_loneExpression : Forward loneExpression := by
  unfold loneExpression
  infer_instance

/-- A round of a loop that goes on up to a closing brace or the end. -/
def insideStep (p : Parser α) : Parser (Option α) := do
  if (← sees (.symbol .rightBrace)) || (← atEnd) then return none else return some (← p)

theorem insideStep_run (p : Parser α) (s : State) :
    insideStep p s =
      if s.sees (.symbol .rightBrace) || s.rest.isEmpty then .ok none s else (some <$> p) s := by
  unfold insideStep
  rw [bind_ok (sees_run _ s), bind_ok (atEnd_run s)]
  split <;> rfl

instance forward_insideStep (p : Parser α) [Forward p] : Forward (insideStep p) := by
  unfold insideStep
  infer_instance

theorem declarationsInside_eq (d : Parser (Option Stmt)) :
    declarationsInside d = (do
      let read ← collect fun _ => insideStep d
      return read.filterMap id) :=
  rfl

section
variable (st : Parser Stmt) (d : Parser (Option Stmt)) [Forward st] [Forward d]

instance forward_declarationsInside : Forward (declarationsInside d) := by
  unfold declarationsInside
  infer_instance

instance forward_block : Forward (block d) := by
  unfold block
  infer_instance

instance forward_routine (kind : Routine) : Forward (routine kind d) := by
  unfold routine
  infer_instance

set_option synthInstance.maxSize 2000 in
instance forward_classDeclaration : Forward (classDeclaration d) := by
  unfold classDeclaration
  infer_instance

instance forward_varDeclaration : Forward varDeclaration := by
  unfold varDeclaration
  dsimp only
  infer_instance

instance forward_expressionStatement : Forward expressionStatement := by
  unfold expressionStatement
  infer_instance

instance forward_printStatement : Forward printStatement := by
  unfold printStatement
  infer_instance

instance forward_returnStatement (keyword : Token) : Forward (returnStatement keyword) := by
  unfold returnStatement
  dsimp only
  infer_instance

instance forward_ifStatement : Forward (ifStatement st) := by
  unfold ifStatement
  infer_instance

instance forward_whileStatement : Forward (whileStatement st) := by
  unfold whileStatement
  infer_instance

instance forward_forInitializer : Forward forInitializer := by
  unfold forInitializer
  infer_instance

set_option synthInstance.maxSize 2000 in
instance forward_forStatement : Forward (forStatement st) := by
  unfold forStatement
  dsimp only
  infer_instance

set_option synthInstance.maxSize 2000 in
instance forward_statementRule : Forward (statementRule st d) := by
  unfold statementRule
  infer_instance

instance forward_declarationRule : Forward (declarationRule st d) := by
  unfold declarationRule
  infer_instance

end

/-- Statements and declarations of any depth. -/
theorem forward_upTo (depth : Nat) :
    Forward (statementUpTo depth) ∧ Forward (declarationUpTo depth) := by
  induction depth with
  | zero => exact ⟨inferInstanceAs (Forward (fail _)), inferInstanceAs (Forward (pure none))⟩
  | succ depth ih =>
    obtain ⟨_, _⟩ := ih
    exact ⟨inferInstanceAs (Forward (statementRule (statementUpTo depth) (declarationUpTo depth))),
      inferInstanceAs (Forward (declarationRule _ (declarationUpTo depth)))⟩

instance forward_statementUpTo (depth : Nat) : Forward (statementUpTo depth) :=
  (forward_upTo depth).1

instance forward_declarationUpTo (depth : Nat) : Forward (declarationUpTo depth) :=
  (forward_upTo depth).2

instance forward_declaration : Forward declaration := by
  unfold declaration
  infer_instance

instance forward_program : Forward program := by
  unfold program
  infer_instance

/-! ## Runs without errors -/

/-- The parser succeeds and notes no error. -/
structure Gives (p : Parser α) (s : State) (a : α) (s' : State) : Prop where
  run : p s = .ok a s'
  quiet : s'.errors = s.errors

/-- The token at the end is an end token. -/
def State.Ends (s : State) : Prop := s.ending.kind = .eof

theorem Gives.ends {p : Parser α} [Forward p] {s s' : State} {a : α} (h : Gives p s a s')
    (ends : s.Ends) : s'.Ends := by
  rw [State.Ends, (Forward.of_ok h.run).ending]
  exact ends

/-- A sequence that gives something does so step by step. -/
theorem bind_gives {x : Parser α} {f : α → Parser β} [Forward x] [∀ a, Forward (f a)]
    {s s'' : State} {b : β} (h : Gives (x >>= f) s b s'') :
    ∃ a s', Gives x s a s' ∧ Gives (f a) s' b s'' := by
  obtain ⟨a, s', hx, hf⟩ := bind_eq_ok h.run
  have before := (Forward.of_ok hx).errors
  have behind := (Forward.of_ok hf).errors
  rw [h.quiet] at behind
  have same : s'.errors = s.errors := behind.eq_of_length_le before.length_le
  exact ⟨a, s', ⟨hx, same⟩, ⟨hf, h.quiet.trans same.symm⟩⟩

/-- Looking at the state leaves it as it is. -/
theorem get_gives {f : State → Parser α} {s s' : State} {a : α} (h : Gives (get >>= f) s a s') :
    Gives (f s) s a s' :=
  ⟨h.run, h.quiet⟩

theorem here_gives {f : Token → Parser α} {s s' : State} {a : α}
    (h : Gives (here >>= f) s a s') : Gives (f s.here) s a s' :=
  ⟨h.run, h.quiet⟩

theorem pure_gives {s s' : State} {a b : α} (h : Gives (pure a : Parser α) s b s') :
    b = a ∧ s' = s := by
  cases h.run
  exact ⟨rfl, rfl⟩

end Lox.Parser
