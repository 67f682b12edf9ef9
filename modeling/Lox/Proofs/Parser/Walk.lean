import Lox.Proofs.Parser.Forward
import Lox.Proofs.Trace.Along

/-!
# Where a parser looks at tokens

A parser looks at one token after the other, and does not only end in a state that it was led to: each state
in which it looks at a token leads to the next one. A parser is *walked* if these states are known
(`Walked.visits`). Single tokens are looked at where they are taken, recovery looks at all that it skips,
and behind each other parsers look at what each of them does. So all parsers of the library are walked.
-/

namespace Lox.Parser

variable {α β : Type}

instance : IsTrans State State.Leads := ⟨fun _ _ _ => .trans⟩

/-- The states in which the parser looks at a token, one leading to the next. -/
class Walked (p : Parser α) where
  visits : State → List State
  leads : ∀ s : State, Along State.Leads s (visits s) (last (p s))

/-- The states in which a parser looks at a token, in their order. -/
def visits (p : Parser α) [Walked p] (s : State) : List State := Walked.visits p s

namespace Walked

variable (p : Parser α) [Forward p]

/-- A parser that looks at no token. -/
abbrev still : Walked p := ⟨fun _ => [], Forward.leads⟩

/-- A parser that looks at the next token and takes none. -/
abbrev looking : Walked p := ⟨fun s => [s], fun s => ⟨.refl s, Forward.leads s⟩⟩

/-- A parser that looks at the next token and, behind it, back at it if it is taken. -/
abbrev taking : Walked p := ⟨fun s => [s, last (p s)], fun s => ⟨.refl s, Forward.leads s, .refl _⟩⟩

end Walked

/-! ## Sequences -/

instance walked_pure (a : α) : Walked (pure a : Parser α) := .still _

instance walked_get : Walked (get : Parser State) := .still _

/-- Behind a parser that gives something, the next one looks at tokens. -/
instance walked_bind (x : Parser α) (f : α → Parser β) [hx : Walked x] [hf : ∀ a, Walked (f a)] :
    Walked (x >>= f) where
  visits s := visits x s ++
    match x s with
    | .ok a t => visits (f a) t
    | .error _ _ => []
  leads s := by
    have first := hx.leads s
    cases h : x s with
    | ok a t =>
      rw [h] at first
      rw [bind_ok h]
      exact first.append ((hf a).leads t)
    | error e t =>
      rw [h] at first
      rw [bind_error h]
      dsimp only
      rwa [List.append_nil]

instance walked_map (f : α → β) (x : Parser α) [Walked x] : Walked (f <$> x) :=
  inferInstanceAs (Walked (x >>= fun a => pure (f a)))

instance walked_ite (c : Prop) [Decidable c] (x y : Parser α) [hx : Walked x] [hy : Walked y] :
    Walked (if c then x else y) where
  visits s := if c then visits x s else visits y s
  leads s := by
    split
    · exact hx.leads s
    · exact hy.leads s

/-- Behind a step that may decline, one of two parsers goes on. -/
abbrev Walked.option {x : Parser β} {f : α → Parser β} (hx : Walked x) (hf : ∀ a, Walked (f a))
    (o : Option α) : Walked (match o with | none => x | some a => f a) :=
  match o with
  | none => hx
  | some a => hf a

/-! ## Single tokens -/

section

variable (kind : TokenKind) (issue : SyntaxIssue) (test : Token → Bool)

instance walked_here : Walked here := .looking _

instance walked_atEnd : Walked atEnd := .looking _

instance walked_sees : Walked (sees kind) := .looking _

instance walked_fail : Walked (fail issue : Parser α) := .looking _

instance walked_report : Walked (report issue) := .looking _

instance walked_note (error : SyntaxError) : Walked (note error) := .still _

instance walked_freshId : Walked freshId := .still _

instance walked_skip : Walked skip := .taking _

instance walked_acceptIf : Walked (acceptIf test) := .taking _

instance walked_accept : Walked (accept kind) := .taking _

instance walked_expect (what : Expectation) : Walked (expect kind what) := .taking _

instance walked_expectMark (mark : Symbol) (place : MarkPlace) : Walked (expectMark mark place) :=
  .taking _

/-! ## Many tokens -/

/-- The states on the way over some tokens, from the first one to the one behind them. -/
def State.over (s : State) : Nat → List State
  | 0 => [s]
  | count + 1 => s :: State.over { s with rest := s.rest.tail } count

theorem State.along_over (s : State) (count : Nat) :
    Along State.Leads s (s.over count) { s with rest := s.rest.drop count } := by
  induction count generalizing s with
  | zero => exact ⟨.refl s, .refl s⟩
  | succ count ih =>
    refine ⟨.refl s, ?_⟩
    have taken := (ih { s with rest := s.rest.tail }).behind (forward_skip.leads s)
    rwa [List.drop_tail] at taken

/-- The tokens from a place on are what is left when those in front of it are dropped. -/
theorem drop_of_suffix {ts us : List Token} (h : us <:+ ts) : ts.drop (ts.length - us.length) = us := by
  obtain ⟨vs, rfl⟩ := h
  rw [List.length_append, Nat.add_sub_cancel, List.drop_left]

instance walked_acceptWhile : Walked (acceptWhile test) where
  visits s := s.over (s.rest.length - (s.rest.dropWhile test).length)
  leads s := by
    have walk := s.along_over (s.rest.length - (s.rest.dropWhile test).length)
    rwa [drop_of_suffix (List.dropWhile_suffix test)] at walk

end

/-- Recovery looks at all tokens that it skips, and at the one where it stops. -/
instance walked_recovering (p : Parser α) [hp : Walked p] : Walked (recovering p) where
  visits s := visits p s ++
    match p s with
    | .ok _ _ => []
    | .error _ t => t.over (t.rest.length - (afterOffence t.rest).length)
  leads s := by
    have first := hp.leads s
    unfold recovering
    cases h : p s with
    | ok a t =>
      rw [h] at first
      dsimp only
      rwa [List.append_nil]
    | error e t =>
      rw [h] at first
      have skipped := t.along_over (t.rest.length - (afterOffence t.rest).length)
      rw [drop_of_suffix (afterOffence_suffix t.rest)] at skipped
      exact (first.append skipped).ahead ⟨List.suffix_refl _, rfl, List.prefix_append _ _, Nat.le_refl _⟩

/-! ## Loops -/

instance walked_iterateAlong (step : α → Parser (Option α)) [h : ∀ a, Walked (step a)] :
    ∀ (left : List Token) (a : α), Walked (iterateAlong step left a)
  | [], a => inferInstanceAs (Walked (pure a))
  | _ :: left, a =>
    @walked_bind _ _ (step a) _ (h a) (.option (walked_pure a) (walked_iterateAlong step left))

instance walked_iterate (step : α → Parser (Option α)) [∀ a, Walked (step a)] (a : α) :
    Walked (iterate step a) :=
  inferInstanceAs (Walked (get >>= fun s => iterateAlong step s.rest a))

instance walked_collectAlong (step : Nat → Parser (Option α)) [h : ∀ i, Walked (step i)] :
    ∀ (left : List Token) (index : Nat), Walked (collectAlong step left index)
  | [], _ => inferInstanceAs (Walked (pure []))
  | _ :: left, index =>
    @walked_bind _ _ (step index) _ (h index) (.option (walked_pure []) fun _ =>
      @walked_bind _ _ _ _ (walked_collectAlong step left (index + 1)) fun _ => walked_pure _)

instance walked_collect (step : Nat → Parser (Option α)) [∀ i, Walked (step i)] :
    Walked (collect step) :=
  inferInstanceAs (Walked (get >>= fun s => collectAlong step s.rest 0))

instance walked_commaSeparated (issue : SyntaxIssue) (item : Parser α) [Walked item] :
    Walked (commaSeparated issue item) := by
  delta commaSeparated
  dsimp only
  infer_instance

instance walked_listed (issue : SyntaxIssue) (item : Parser α) [Walked item] :
    Walked (listed issue item) :=
  inferInstanceAs (Walked (sees _ >>= fun b => if b then _ else _))

/-! ## Expressions -/

instance walked_leaf (tree : Expr) : Walked (leaf tree) :=
  inferInstanceAs (Walked (skip >>= fun _ => pure tree))

instance walked_extend (tier : Tier) (operand : Parser Expr) [Walked operand] (left : Expr) :
    Walked (tier.extend operand left) :=
  @walked_bind _ _ (acceptIf _) _ inferInstance fun taken =>
    match taken with
    | none => walked_pure none
    | some operator =>
      inferInstanceAs (Walked (operand >>= fun right => pure (some (tier.node left operator right))))

instance walked_climb (operand : Parser Expr) [h : Walked operand] :
    ∀ tiers : List Tier, Walked (climb operand tiers)
  | [] => h
  | tier :: tighter =>
    have := walked_climb operand tighter
    inferInstanceAs (Walked (climb operand tighter >>= iterate (tier.extend (climb operand tighter))))

instance walked_primary (e : Parser Expr) [Walked e] : Walked (primary e) := by
  delta primary
  refine @walked_bind _ _ _ _ walked_here fun token => ?_
  split <;> infer_instance

instance walked_application (e : Parser Expr) [Walked e] (callee : Expr) :
    Walked (application e callee) := by
  delta application
  infer_instance

instance walked_applied (e : Parser Expr) [Walked e] : Walked (applied e) :=
  inferInstanceAs (Walked (primary e >>= iterate (application e)))

instance walked_prefixed (e : Parser Expr) [Walked e] : Walked (prefixed e) := by
  delta prefixed
  infer_instance

instance walked_assignmentTo (target : Expr) (error : SyntaxError) (value : Expr) :
    Walked (assignmentTo target error value) := by
  delta assignmentTo
  split <;> infer_instance

instance walked_assignment (e : Parser Expr) [Walked e] : Walked (assignment e) := by
  delta assignment
  infer_instance

instance walked_expressionUpTo : ∀ depth, Walked (expressionUpTo depth)
  | 0 => inferInstanceAs (Walked (fail _))
  | depth + 1 =>
    have := walked_expressionUpTo depth
    inferInstanceAs (Walked (assignment (expressionUpTo depth)))

instance walked_expression : Walked expression := by
  delta expression
  infer_instance

instance walked_loneExpression : Walked loneExpression := by
  delta loneExpression
  infer_instance

/-! ## Statements and declarations -/

section

variable (st : Parser Stmt) (d : Parser (Option Stmt)) [Walked st] [Walked d]

instance walked_declarationsInside : Walked (declarationsInside d) := by
  delta declarationsInside
  infer_instance

instance walked_block : Walked (block d) := by
  delta block
  infer_instance

instance walked_routine (kind : Routine) : Walked (routine kind d) := by
  delta routine
  infer_instance

set_option synthInstance.maxSize 4000 in
instance walked_classDeclaration : Walked (classDeclaration d) := by
  delta classDeclaration
  infer_instance

instance walked_varDeclaration : Walked varDeclaration := by
  delta varDeclaration
  dsimp only
  infer_instance

instance walked_expressionStatement : Walked expressionStatement := by
  delta expressionStatement
  infer_instance

instance walked_printStatement : Walked printStatement := by
  delta printStatement
  infer_instance

instance walked_returnStatement (keyword : Token) : Walked (returnStatement keyword) := by
  delta returnStatement
  dsimp only
  infer_instance

instance walked_ifStatement : Walked (ifStatement st) := by
  delta ifStatement
  infer_instance

instance walked_whileStatement : Walked (whileStatement st) := by
  delta whileStatement
  infer_instance

instance walked_forInitializer : Walked forInitializer := by
  delta forInitializer
  infer_instance

set_option synthInstance.maxSize 4000 in
instance walked_forStatement : Walked (forStatement st) := by
  delta forStatement
  dsimp only
  infer_instance

set_option synthInstance.maxSize 4000 in
instance walked_statementRule : Walked (statementRule st d) := by
  delta statementRule
  infer_instance

set_option synthInstance.maxSize 4000 in
instance walked_declarationRule : Walked (declarationRule st d) := by
  delta declarationRule
  infer_instance

end

/-- Statements and declarations of any depth. -/
abbrev Walked.upTo : ∀ depth, Walked (statementUpTo depth) × Walked (declarationUpTo depth)
  | 0 => ⟨inferInstanceAs (Walked (fail _)), inferInstanceAs (Walked (pure none))⟩
  | depth + 1 =>
    have := (Walked.upTo depth).1
    have := (Walked.upTo depth).2
    ⟨inferInstanceAs (Walked (statementRule (statementUpTo depth) (declarationUpTo depth))),
      inferInstanceAs (Walked (declarationRule
        (statementRule (statementUpTo depth) (declarationUpTo depth)) (declarationUpTo depth)))⟩

instance walked_declarationUpTo (depth : Nat) : Walked (declarationUpTo depth) := (Walked.upTo depth).2

instance walked_declaration : Walked declaration := by
  delta declaration
  infer_instance

instance walked_program : Walked program := by
  delta program
  infer_instance

end Lox.Parser
