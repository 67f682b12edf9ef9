import Lox.Proofs.Parser.Statement

/-!
# Enough depth

Rules nest as deep as their bound says, and the bound is the number of tokens that are left. Whatever
nests is behind a token that was taken, so any bound above that number does (`expression_run`,
`declaration_run`): what a parser does depends on its tokens, but not on how many of them there are.
-/

namespace Lox.Parser

variable {α β : Type}

/-- The parsers do the same wherever fewer tokens are left than the bound. -/
def AgreeBelow (bound : Nat) (p q : Parser α) : Prop :=
  ∀ s : State, s.Ends → s.rest.length < bound → p s = q s

namespace AgreeBelow

variable {n : Nat} {p q : Parser α} {f g : α → Parser β}

theorem refl (n : Nat) (p : Parser α) : AgreeBelow n p p := fun _ _ _ => rfl

theorem weaken (h : AgreeBelow (n + 1) p q) : AgreeBelow n p q :=
  fun s ends hs => h s ends (Nat.lt_succ_of_lt hs)

theorem bind [Forward p] (h : AgreeBelow n p q) (hfg : ∀ a, AgreeBelow n (f a) (g a)) :
    AgreeBelow n (p >>= f) (q >>= g) := by
  intro s ends hs
  have same := h s ends hs
  cases hp : p s with
  | ok a t =>
    have leads := Forward.of_ok hp
    rw [bind_ok hp, bind_ok (same.symm.trans hp)]
    have ended : t.Ends := (congrArg Token.kind leads.ending).trans ends
    exact hfg a t ended (Nat.lt_of_le_of_lt leads.rest.length_le hs)
  | error e t => rw [bind_error hp, bind_error (same.symm.trans hp)]

theorem map [Forward p] (h : AgreeBelow n p q) (f : α → β) : AgreeBelow n (f <$> p) (f <$> q) :=
  h.bind fun _ => refl n _

theorem ite {p' q' : Parser α} {c : Prop} [Decidable c] (h : AgreeBelow n p q)
    (h' : AgreeBelow n p' q') : AgreeBelow n (if c then p else p') (if c then q else q') := by
  split
  · exact h
  · exact h'

/-- Behind a token that is taken, one token less is left. -/
theorem accept {kind : TokenKind} {p' q' : Parser α} (h : AgreeBelow n p q)
    (h' : AgreeBelow (n + 1) p' q') :
    AgreeBelow (n + 1) (Parser.accept kind >>= fun taken => if taken then p else p')
      (Parser.accept kind >>= fun taken => if taken then q else q') := by
  intro s ends hs
  cases hsees : s.sees kind with
  | true =>
    obtain ⟨token, rest, hrest, hkind⟩ := exists_of_sees hsees
    rw [bind_ok (accept_take hrest hkind), bind_ok (accept_take hrest hkind), if_pos rfl, if_pos rfl]
    refine h _ ends ?_
    rw [hrest, List.length_cons] at hs
    exact Nat.lt_of_succ_lt_succ hs
  | false =>
    have leave := accept_leave (notNext_of_sees hsees)
    rw [bind_ok leave, bind_ok leave, if_neg Bool.false_ne_true, if_neg Bool.false_ne_true]
    exact h' s ends hs

/-! ### Loops -/

theorem iterate {step step' : α → Parser (Option α)} [∀ a, Forward (step a)]
    (h : ∀ a, AgreeBelow n (step a) (step' a)) (a : α) :
    AgreeBelow n (Parser.iterate step a) (Parser.iterate step' a) := by
  have along : ∀ (left : List Token) a,
      AgreeBelow n (iterateAlong step left a) (iterateAlong step' left a) := by
    intro left
    induction left with
    | nil => exact fun a => refl n _
    | cons _ left ih =>
      intro a
      refine (h a).bind ?_
      rintro (_ | b)
      · exact refl n _
      · exact ih b
  exact fun s => along s.rest a s

theorem collect {step step' : Nat → Parser (Option α)} [∀ i, Forward (step i)]
    (h : ∀ i, AgreeBelow n (step i) (step' i)) :
    AgreeBelow n (Parser.collect step) (Parser.collect step') := by
  have along : ∀ (left : List Token) i,
      AgreeBelow n (collectAlong step left i) (collectAlong step' left i) := by
    intro left
    induction left with
    | nil => exact fun i => refl n _
    | cons _ left ih =>
      intro i
      refine (h i).bind ?_
      rintro (_ | a)
      · exact refl n _
      · exact (ih (i + 1)).bind fun _ => refl n _
  exact fun s => along s.rest 0 s

theorem listed {issue : SyntaxIssue} [Forward p] (h : AgreeBelow n p q) :
    AgreeBelow n (Parser.listed issue p) (Parser.listed issue q) := by
  have item : ∀ index, AgreeBelow n (numbered issue p index) (numbered issue q index) := fun index => by
    refine .ite ?_ h
    exact (refl n (report issue)).bind fun _ => h
  refine (refl n (sees _)).bind fun _ => .ite (refl n _) ?_
  rw [commaSeparated_eq, commaSeparated_eq]
  refine (item 0).bind fun first => .bind (.collect fun index => ?_) fun _ => refl n _
  exact (refl n (Parser.accept _)).bind fun _ => .ite ((item _).bind fun _ => refl n _) (refl n _)

theorem recovering (h : AgreeBelow n p q) : AgreeBelow n (Parser.recovering p) (Parser.recovering q) := by
  intro s ends hs
  unfold Parser.recovering
  rw [h s ends hs]

end AgreeBelow

/-! ## Expressions -/

section

variable {n : Nat} {e e' : Parser Expr} [Forward e]

/-- Only a parenthesis has an expression inside. -/
theorem primary_other {s : State} (h : s.here.kind ≠ .symbol .leftParen) (e e' : Parser Expr) :
    primary e s = primary e' s := by
  unfold primary
  rw [bind_ok (here_run s), bind_ok (here_run s)]
  cases hkind : s.here.kind with
  | keyword word => cases word <;> rfl
  | symbol mark =>
    cases mark
    case leftParen => exact absurd hkind h
    all_goals rfl
  | _ => rfl

theorem primary_paren {s : State} (h : s.here.kind = .symbol .leftParen) (e : Parser Expr) :
    primary e s = (do
      let inner ← e
      let _ ← expectMark .rightParen .afterGroup
      return .grouping inner : Parser Expr) { s with rest := s.rest.tail } := by
  unfold primary
  rw [bind_ok (here_run s), h]
  rfl

theorem primary_agree (h : AgreeBelow n e e') : AgreeBelow (n + 1) (primary e) (primary e') := by
  intro s ends hs
  by_cases hkind : s.here.kind = .symbol .leftParen
  · have nonempty : s.rest ≠ [] := fun hempty => by
      have ended : s.here.kind = .eof := by rw [State.here, hempty]; exact ends
      rw [hkind] at ended
      cases ended
    have shorter : s.rest.tail.length < n := by
      rw [List.length_tail]
      have := List.length_pos_iff.mpr nonempty
      omega
    rw [primary_paren hkind, primary_paren hkind]
    exact (h.bind fun _ => .refl n _) { s with rest := s.rest.tail } ends shorter
  · exact primary_other hkind e e'

theorem applied_agree (h : AgreeBelow n e e') : AgreeBelow (n + 1) (applied e) (applied e') := by
  refine (primary_agree h).bind fun first => .iterate (fun callee => ?_) first
  unfold application
  refine .accept ?_ (.refl _ _)
  exact h.listed.bind fun _ => .refl n _

theorem climb_agree (h : AgreeBelow n e e') (tiers : List Tier) :
    AgreeBelow (n + 1) (climb (prefixed e) tiers) (climb (prefixed e') tiers) := by
  induction tiers with
  | nil => exact (AgreeBelow.refl _ (acceptWhile _)).bind fun _ => (applied_agree h).bind fun _ => .refl _ _
  | cons tier tighter ih =>
    refine ih.bind fun first => .iterate (fun left => ?_) first
    refine (AgreeBelow.refl _ (acceptIf _)).bind ?_
    rintro (_ | operator)
    · exact .refl _ _
    · exact ih.bind fun _ => .refl _ _

theorem assignment_agree (h : AgreeBelow n e e') :
    AgreeBelow (n + 1) (assignment e) (assignment e') := by
  refine (climb_agree h tiers).bind fun target => ?_
  refine (AgreeBelow.refl _ (get : Parser State)).bind fun s => .accept ?_ (.refl _ _)
  exact h.bind fun _ => .refl n _

end

theorem expressionUpTo_agree {d d' : Nat} : ∀ {n : Nat}, n ≤ d → n ≤ d' →
    AgreeBelow n (expressionUpTo d) (expressionUpTo d')
  | 0, _, _ => fun _ _ hs => absurd hs (Nat.not_lt_zero _)
  | n + 1, hd, hd' => by
    obtain ⟨d, rfl⟩ := Nat.exists_eq_add_of_lt hd
    obtain ⟨d', rfl⟩ := Nat.exists_eq_add_of_lt hd'
    exact assignment_agree (expressionUpTo_agree (Nat.le_add_right n d) (Nat.le_add_right n d'))

/-- Any depth above the number of tokens is enough for an expression. -/
theorem expression_run {s : State} (ends : s.Ends) {depth : Nat} (h : s.rest.length < depth) :
    expression s = expressionUpTo depth s :=
  expressionUpTo_agree (Nat.le_refl (s.rest.length + 1)) h s ends (Nat.lt_succ_self _)

/-- An expression is read by its rule, with no bound on how deep it nests. -/
theorem expression_unfold {s : State} (ends : s.Ends) : expression s = assignment expression s := by
  have agree : AgreeBelow (s.rest.length + 1) expression (expressionUpTo (s.rest.length + 1)) :=
    fun t ends ht => expression_run ends ht
  have deep : s.rest.length < s.rest.length + 1 + 1 := by omega
  rw [expression_run ends deep]
  exact (assignment_agree agree s ends deep).symm

/-! ## Statements and declarations -/

section

variable {n : Nat} {st st' : Parser Stmt} {d d' : Parser (Option Stmt)} [Forward st] [Forward d]

theorem declarationsInside_agree (hd : AgreeBelow n d d') :
    AgreeBelow n (declarationsInside d) (declarationsInside d') := by
  refine .bind (.collect fun _ => ?_) fun _ => .refl n _
  refine (AgreeBelow.refl n (sees _)).bind fun _ => (AgreeBelow.refl n atEnd).bind fun _ => ?_
  exact .ite (.refl n _) (hd.bind fun _ => .refl n _)

theorem block_agree (hd : AgreeBelow n d d') : AgreeBelow n (block d) (block d') :=
  (declarationsInside_agree hd).bind fun _ => .refl n _

theorem routine_agree (kind : Routine) (hd : AgreeBelow n d d') :
    AgreeBelow n (routine kind d) (routine kind d') := by
  unfold routine
  iterate 5 refine AgreeBelow.bind (.refl n _) fun _ => ?_
  exact (block_agree hd).bind fun _ => .refl n _

theorem classDeclaration_agree (hd : AgreeBelow n d d') :
    AgreeBelow n (classDeclaration d) (classDeclaration d') := by
  unfold classDeclaration
  iterate 2 refine AgreeBelow.bind (.refl n _) fun _ => ?_
  refine .bind (.collect fun _ => ?_) fun _ => .refl n _
  refine (AgreeBelow.refl n (sees _)).bind fun _ => (AgreeBelow.refl n atEnd).bind fun _ => ?_
  exact .ite (.refl n _) ((routine_agree .method hd).bind fun _ => .refl n _)

theorem ifStatement_agree (hst : AgreeBelow n st st') :
    AgreeBelow n (ifStatement st) (ifStatement st') := by
  unfold ifStatement
  iterate 3 refine AgreeBelow.bind (.refl n _) fun _ => ?_
  refine hst.bind fun _ => (AgreeBelow.refl n (accept _)).bind fun _ => ?_
  exact .ite (hst.bind fun _ => .refl n _) (.refl n _)

theorem whileStatement_agree (hst : AgreeBelow n st st') :
    AgreeBelow n (whileStatement st) (whileStatement st') := by
  unfold whileStatement
  iterate 3 refine AgreeBelow.bind (.refl n _) fun _ => ?_
  exact hst.bind fun _ => .refl n _

theorem forStatement_agree (hst : AgreeBelow n st st') :
    AgreeBelow n (forStatement st) (forStatement st') := by
  rw [forStatement_eq, forStatement_eq]
  iterate 6 refine AgreeBelow.bind (.refl n _) fun _ => ?_
  exact hst.bind fun _ => .refl n _

theorem statementRule_agree (hst : AgreeBelow n st st') (hd : AgreeBelow n d d') :
    AgreeBelow (n + 1) (statementRule st d) (statementRule st' d') := by
  refine (AgreeBelow.refl _ here).bind fun token => ?_
  refine .accept (forStatement_agree hst) (.accept (ifStatement_agree hst)
    (.accept (whileStatement_agree hst) (.accept (.refl n _) (.accept ?_ (.refl _ _)))))
  exact (block_agree hd).bind fun _ => .refl n _

omit [Forward st] in
theorem declarationRule_agree (hst : AgreeBelow (n + 1) st st') (hd : AgreeBelow n d d') :
    AgreeBelow (n + 1) (declarationRule st d) (declarationRule st' d') := by
  refine .recovering (.accept (classDeclaration_agree hd) (.accept ?_ (.accept (.refl n _) hst)))
  exact (routine_agree .function hd).bind fun _ => .refl n _

end

theorem upTo_agree {d d' : Nat} : ∀ {n : Nat}, n ≤ d → n ≤ d' →
    AgreeBelow n (statementUpTo d) (statementUpTo d') ∧
      AgreeBelow n (declarationUpTo d) (declarationUpTo d')
  | 0, _, _ => ⟨fun _ _ hs => absurd hs (Nat.not_lt_zero _), fun _ _ hs => absurd hs (Nat.not_lt_zero _)⟩
  | n + 1, hd, hd' => by
    obtain ⟨d, rfl⟩ := Nat.exists_eq_add_of_lt hd
    obtain ⟨d', rfl⟩ := Nat.exists_eq_add_of_lt hd'
    obtain ⟨hst, hd⟩ := upTo_agree (Nat.le_add_right n d) (Nat.le_add_right n d')
    exact ⟨statementRule_agree hst hd, declarationRule_agree (statementRule_agree hst hd) hd⟩

/-- Any depth above the number of tokens is enough for a declaration. -/
theorem declaration_run {s : State} (ends : s.Ends) {depth : Nat} (h : s.rest.length < depth) :
    declaration s = declarationUpTo depth s :=
  (upTo_agree (Nat.le_refl (s.rest.length + 1)) h).2 s ends (Nat.lt_succ_self _)

/-- A statement. -/
def statement : Parser Stmt := do
  statementUpTo ((← get).rest.length + 1)

instance forward_statement : Forward statement := by
  unfold statement
  infer_instance

/-- Any depth above the number of tokens is enough for a statement. -/
theorem statement_run {s : State} (ends : s.Ends) {depth : Nat} (h : s.rest.length < depth) :
    statement s = statementUpTo depth s :=
  (upTo_agree (Nat.le_refl (s.rest.length + 1)) h).1 s ends (Nat.lt_succ_self _)

section

variable {s : State}

private theorem statement_agree (n : Nat) : AgreeBelow n statement (statementUpTo n) :=
  fun _ ends ht => statement_run ends ht

private theorem declaration_agree (n : Nat) : AgreeBelow n declaration (declarationUpTo n) :=
  fun _ ends ht => declaration_run ends ht

/-- A statement is read by its rule. -/
theorem statement_unfold (ends : s.Ends) : statement s = statementRule statement declaration s := by
  have deep : s.rest.length < s.rest.length + 1 + 1 := by omega
  rw [statement_run ends deep]
  exact (statementRule_agree (statement_agree _) (declaration_agree _) s ends deep).symm

/-- A declaration is read by its rule. -/
theorem declaration_unfold (ends : s.Ends) :
    declaration s = declarationRule statement declaration s := by
  have deep : s.rest.length < s.rest.length + 1 + 1 := by omega
  rw [declaration_run ends deep]
  exact (declarationRule_agree (statement_agree _) (declaration_agree _) s ends deep).symm

end

end Lox.Parser
