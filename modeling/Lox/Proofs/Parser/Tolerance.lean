import Lox.Proofs.Parser.Passing
import Lox.Proofs.Syntax.Acceptance

/-!
# The parser reads expressions with flaws

What derives from the lenient grammar is taken by the parser of its rule, and what is noted on the way are
the flaws of the derivation. For expressions this needs one more thing to be known of a run: whether the
tree that it gives can be assigned to. That is so just if the tokens derive a target, which takes both
directions. A tree of the one or the other kind comes with tokens of that kind, and tokens that derive a
target are read in one way only.
-/

namespace Lox.Parser

open Lox.Grammar Lox.Grammar.Phrase

/-! ## What runs do -/

/-- The tokens begin with one of which `test` holds. -/
def Begins (test : Token → Bool) (ts : List Token) : Prop :=
  ∃ token us, ts = token :: us ∧ test token = true

theorem Begins.append {test : Token → Bool} {ts : List Token} (h : Begins test ts) (us : List Token) :
    Begins test (ts ++ us) := by
  obtain ⟨token, vs, rfl, htoken⟩ := h
  exact ⟨token, vs ++ us, rfl, htoken⟩

theorem Begins.ne_nil {test : Token → Bool} {ts : List Token} (h : Begins test ts) : ts ≠ [] := by
  obtain ⟨token, vs, rfl, -⟩ := h
  exact List.cons_ne_nil token vs

theorem Begins.imp {test test' : Token → Bool} {ts : List Token} (h : Begins test ts)
    (himp : ∀ token, test token = true → test' token = true) : Begins test' ts := by
  obtain ⟨token, us, rfl, htoken⟩ := h
  exact ⟨token, us, rfl, himp token htoken⟩

/-- No expression starts with a token of this kind. -/
theorem Begins.notNext {ts : List Token} (h : Begins startsExpression ts) {kind : TokenKind}
    (hkind : startsExpression ⟨kind, "", 0⟩ = false) (rest : List Token) : NotNext kind (ts ++ rest) := by
  obtain ⟨token, us, rfl, htoken⟩ := h
  exact notNext_cons (ne_of_startsExpression htoken hkind)

/-- The parser reads an operand; what it gives can be assigned to or not, and if it can then the tokens
derive a target. -/
structure RunsOperand (p : Parser Expr) (test : Token → Bool) (stops : List Token → Prop)
    (assignable : Prop) (rest ts : List Token) (flaws : List SyntaxError) : Prop where
  begins : Begins test ts
  target : assignable → DerivesLeniently target ts
  reads : stops rest → Over p (fun t => IsTarget t ↔ assignable) rest ts flaws

/-- Operands with the operators of some tiers are read. -/
def RunsClimb (tiers : List Tier) : Reading := fun rest ts flaws => ∃ assignable,
  RunsOperand (climb (prefixed expression) tiers) startsExpression (Stops tiers) assignable rest ts flaws

/-- Calls and properties are read, and can be assigned to if they end in a name. -/
def RunsCall : Reading := fun rest ts flaws =>
  RunsOperand (applied expression) startsOperand (Stops []) (EndsInName ts) rest ts flaws

/-- An expression is read. -/
def RunsExpression : Reading := fun rest ts flaws =>
  Begins startsExpression ts ∧ (StopsWhole rest → Passes expression rest ts flaws)

/-- A list is read up to a closing parenthesis. -/
def RunsListed {α : Type} (issue : SyntaxIssue) (item : Parser α) : Reading := fun rest ts flaws =>
  Next (.symbol .rightParen) rest → Passes (listed issue item) rest ts flaws

/-! ## Operands -/

section

variable {rest ts us : List Token} {flaws more : List SyntaxError} {token : Token}

theorem endsInName_append {us vs : List Token} (h : vs ≠ []) :
    EndsInName (us ++ vs) ↔ EndsInName vs := by
  obtain ⟨ws, token, rfl⟩ := List.eq_nil_or_concat' vs |>.resolve_left h
  rw [← List.append_assoc, endsInName_snoc, endsInName_snoc]

theorem not_endsInName {symbol : Symbol} (h : token.kind = .symbol symbol) :
    ¬ EndsInName (us ++ [token]) := by
  rw [endsInName_snoc, h]
  exact TokenKind.noConfusion

/-- What is read without flaws is read. -/
theorem Over.of_takes {α : Type} {p : Parser α} {P : α → Prop}
    (h : ∀ n, ∃ a n', P a ∧ Takes p (fun _ => True) n ts a n') : Over p P rest ts [] :=
  .of_run fun s _ hs => by
    obtain ⟨a, n', ha, htakes⟩ := h s.nextId
    refine ⟨a, n', ha, (htakes trivial hs rfl).trans ?_⟩
    rw [State.past, List.append_nil]

/-- A token that is an operand alone. -/
theorem runs_token (tree : OccurrenceId → Expr) (hstarts : startsOperand token = true)
    (hreads : ∀ n, ∃ n', ReadsExpr .primary n [token] (tree n) n')
    (htarget : ∀ n, IsTarget (tree n) ↔ token.kind = .identifier) :
    RunsOperand (primary expression) startsOperand (fun _ => True) (EndsInName [token]) rest [token] [] where
  begins := ⟨token, [], rfl, hstarts⟩
  target h := target_name (endsInName_singleton.mp h)
  reads _ := .of_takes fun n => by
    obtain ⟨n', hreads⟩ := hreads n
    refine ⟨tree n, n', (htarget n).trans endsInName_singleton.symm, ?_⟩
    exact primary_takes (fun h _ => expression_takes h) hreads (Nat.le_refl 1)

theorem runs_literal {value : Literal} (h : token.kind.literal? = some value) :
    RunsOperand (primary expression) startsOperand (fun _ => True) (EndsInName [token]) rest [token] [] := by
  refine runs_token (fun _ => .literal value) (startsOperand_of_literal? h)
    (fun n => ⟨n, .literal h⟩) fun _ => ⟨False.elim, fun hkind => ?_⟩
  rw [hkind] at h
  cases h

theorem runs_grouping {opening closing : Token} (hopening : opening.kind = .symbol .leftParen)
    (h : RunsExpression (closing :: rest) us flaws) (hclosing : closing.kind = .symbol .rightParen) :
    RunsOperand (primary expression) startsOperand (fun _ => True) (EndsInName (opening :: us ++ [closing]))
      rest (opening :: us ++ [closing]) flaws := by
  have unnamed : ¬ EndsInName (opening :: us ++ [closing]) := not_endsInName hclosing
  refine ⟨⟨opening, _, rfl, by rw [startsOperand, hopening]⟩, fun hname => (unnamed hname).elim,
    fun _ => ?_⟩
  have inner := h.2 (stopsWhole_cons (by rw [hclosing]; decide))
  have run : Over (do
      let inner ← expression
      let _ ← expectMark .rightParen .afterGroup
      return .grouping inner : Parser Expr)
      (fun t => IsTarget t ↔ EndsInName (opening :: us ++ [closing])) rest (us ++ [closing]) (flaws ++ []) :=
    inner.bind fun _ _ => .expect hclosing (Over.pure ⟨False.elim, unnamed⟩)
  rw [List.append_nil] at run
  refine ComesTo.of_cons run fun {s} hs => ?_
  rw [primary_paren (by rw [here_cons hs]; exact hopening), hs]
  rfl

theorem runs_primary {meaning : Rule → Reading} (hinner : meaning .expression = RunsExpression)
    (h : Rule.primary.phrase.Shows meaning rest ts flaws) :
    RunsOperand (primary expression) startsOperand (fun _ => True) (EndsInName ts) rest ts flaws := by
  obtain ((((((⟨token, rfl, rfl, _, hkind⟩ | ⟨token, rfl, rfl, _, hkind⟩) | ⟨token, rfl, rfl, hkind⟩) |
    ⟨token, rfl, rfl, hkind⟩) | ⟨token, rfl, rfl, hkind⟩) | ⟨token, rfl, rfl, hkind⟩) |
    ⟨token, rfl, rfl, hkind⟩) | ⟨_, _, _, _, rfl, rfl, ⟨_, us, _, f, rfl, rfl, ⟨opening, rfl, rfl, hopening⟩,
      inner⟩, closing, rfl, rfl, hclosing⟩ := h
  · exact runs_literal (by rw [hkind]; rfl)
  · exact runs_literal (by rw [hkind]; rfl)
  · exact runs_literal (by rw [hkind]; rfl)
  · exact runs_literal (by rw [hkind]; rfl)
  · exact runs_literal (by rw [hkind]; rfl)
  · refine runs_token (fun n => .this n token) (by rw [startsOperand, hkind])
      (fun n => ⟨_, .this hkind⟩) fun _ => ⟨False.elim, fun h => ?_⟩
    cases hkind.symm.trans h
  · exact runs_token (fun n => .var n token) (by rw [startsOperand, hkind])
      (fun n => ⟨_, .var hkind⟩) fun _ => ⟨fun _ => hkind, fun _ => trivial⟩
  · have inner : meaning .expression (closing :: rest) us f := inner
    rw [hinner] at inner
    rw [List.nil_append, List.append_nil]
    exact runs_grouping hopening inner hclosing

/-- A list that may be missing is one of no items. -/
theorem passes_listed {α : Type} {issue : SyntaxIssue} {item : Parser α}
    (next : Next (.symbol .rightParen) rest)
    (h : ts = [] ∧ flaws = [] ∨ RunsListed issue item rest ts flaws) :
    Passes (listed issue item) rest ts flaws := by
  obtain ⟨rfl, rfl⟩ | h := h
  · exact ComesTo.seen next (Passes.pure [])
  · exact h next

/-- What is applied to a callee can be assigned to if it is a property. -/
theorem over_application {meaning : Rule → Reading}
    (hlist : meaning .arguments = RunsListed .tooManyArguments expression)
    (h : (mark .leftParen ++ optional (rule .arguments) ++ mark .rightParen ||| mark .dot ++ ident).Shows
      meaning rest ts flaws) :
    ts ≠ [] ∧ ∀ callee, Over (application expression callee)
      (fun o => ∃ t, o = some t ∧ (IsTarget t ↔ EndsInName ts)) rest ts flaws := by
  obtain ⟨_, _, _, _, rfl, rfl, ⟨_, us, _, f, rfl, rfl, ⟨opening, rfl, rfl, hopening⟩, arguments⟩, closing,
    rfl, rfl, hclosing⟩ | ⟨_, _, _, _, rfl, rfl, ⟨dot, rfl, rfl, hdot⟩, name, rfl, rfl, hname⟩ := h
  · have arguments : us = [] ∧ f = [] ∨ meaning .arguments (closing :: rest) us f := arguments
    rw [hlist] at arguments
    have list := passes_listed ⟨closing, rest, rfl, hclosing⟩ arguments
    refine ⟨List.cons_ne_nil _ _, fun callee => ?_⟩
    rw [List.nil_append]
    exact ComesTo.taken hopening (list.bind fun _ _ => .expect hclosing
      (Over.pure ⟨_, rfl, False.elim, not_endsInName hclosing⟩))
  · refine ⟨List.cons_ne_nil _ _, fun callee =>
      ComesTo.left (notNext_cons (by rw [hdot]; decide)) ?_⟩
    exact ComesTo.taken hdot (.expect hname
      (Over.pure ⟨_, rfl, fun _ => endsInName_snoc.mpr hname, fun _ => trivial⟩))

/-- Calls and properties behind an operand. -/
theorem runs_call {meaning : Rule → Reading}
    (hfirst : ∀ {rest ts flaws}, meaning .primary rest ts flaws →
      RunsOperand (primary expression) startsOperand (fun _ => True) (EndsInName ts) rest ts flaws)
    (hlist : meaning .arguments = RunsListed .tooManyArguments expression)
    (hcall : DerivesLeniently (rule .call) ts) (h : Rule.call.phrase.Shows meaning rest ts flaws) :
    RunsCall rest ts flaws := by
  obtain ⟨us, vs, f, g, rfl, rfl, first, parts⟩ := h
  have first := hfirst first
  refine ⟨first.begins.append vs, fun hname => target_iff.mpr ⟨hcall, hname⟩, fun hstops => ?_⟩
  refine (first.reads trivial).bind fun callee hcallee => ?_
  -- the last of the parts decides, since a property of anything is a target and a call is none
  refine over_iterate (fun _ => True) (fun ts t => IsTarget t ↔ EndsInName ts) us ?_
    (fun _ => trivial) trivial (fun {_ _} hs => application_leave (hs ▸ hstops) _) parts hcallee
  intro rest part flaws hpart _
  obtain ⟨nonempty, run⟩ := over_application hlist hpart
  refine ⟨nonempty, fun {us callee} _ => (run callee).imp fun o => ?_⟩
  rintro ⟨t, rfl, ht⟩
  exact ⟨t, rfl, ht.trans (endsInName_append nonempty).symm⟩

/-! ## Operators -/

/-- Operators in front of an operand are taken one by one. -/
theorem prefixed_cons {e : Parser Expr} {s : State} (hs : s.rest = token :: us)
    (h : isPrefixOperator token = true) :
    prefixed e s = (Expr.unary token <$> prefixed e) { s with rest := us } := by
  show _ = (prefixed e >>= fun t => pure (Expr.unary token t)) _
  unfold prefixed
  rw [bind_assoc, bind_ok (acceptWhile_run _ s), bind_ok (acceptWhile_run _ _), hs,
    List.takeWhile_cons_of_pos h, List.dropWhile_cons_of_pos h, bind_assoc]
  rfl

/-- Calls and properties are operands without an operator in front. -/
theorem RunsOperand.of_call (h : RunsCall rest ts flaws) :
    RunsOperand (prefixed expression) startsExpression (Stops []) (EndsInName ts) rest ts flaws := by
  refine ⟨h.begins.imp fun _ h => Bool.or_eq_true_iff.mpr (.inl h), h.target,
    fun hstops => .of_run fun s ends hs => ?_⟩
  obtain ⟨t, n, ht, hrun⟩ := (h.reads hstops).run ends hs
  refine ⟨t, n, ht, ?_⟩
  -- the loop over the operators ends before it begins
  obtain ⟨token, us, rfl, htoken⟩ := h.begins
  have none_left : ¬ isPrefixOperator token = true := by
    rw [isPrefixOperator_of_startsOperand htoken]
    exact Bool.false_ne_true
  unfold prefixed
  rw [bind_ok (acceptWhile_run _ s), hs, List.cons_append, List.takeWhile_cons_of_neg none_left,
    List.dropWhile_cons_of_neg none_left]
  rw [show { s with rest := token :: (us ++ rest) } = s by rw [← List.cons_append, ← hs]]
  exact bind_ok hrun

theorem runs_unary {meaning : Rule → Reading} (hcall : meaning .call = RunsCall)
    (hunary : meaning .unary = RunsClimb []) (h : Rule.unary.phrase.Shows meaning rest ts flaws) :
    RunsClimb [] rest ts flaws := by
  obtain ⟨_, us, _, f, rfl, rfl, hoperator, operand⟩ | h := h
  · have choices : (mark .bang ||| mark .minus).choices = some [.symbol .bang, .symbol .minus] := rfl
    obtain ⟨token, rfl, rfl, hmem⟩ := shows_choices choices hoperator
    have htoken : isPrefixOperator token = true := by
      rw [isPrefixOperator, Bool.or_eq_true_iff, beq_iff_eq, beq_iff_eq]
      simpa using hmem
    have operand : meaning .unary rest us f := operand
    rw [hunary] at operand
    obtain ⟨_, -, -, operand⟩ := operand
    refine ⟨False, ⟨token, us, rfl, Bool.or_eq_true_iff.mpr (.inr htoken)⟩, False.elim, fun hstops => ?_⟩
    have negated : Over (Expr.unary token <$> prefixed expression) (fun t => IsTarget t ↔ False) rest us f :=
      (operand hstops).map fun _ _ => Iff.rfl
    exact ComesTo.of_cons negated fun hs => prefixed_cons hs htoken
  · have h : meaning .call rest ts flaws := h
    rw [hcall] at h
    exact ⟨_, .of_call h⟩

/-- An operand of the tighter tiers is one of the looser ones. -/
theorem RunsOperand.to_climb {assignable : Prop}
    (h : RunsOperand (prefixed expression) startsExpression (Stops []) assignable rest ts flaws)
    (tiers : List Tier) :
    RunsOperand (climb (prefixed expression) tiers) startsExpression (Stops tiers) assignable rest ts
      flaws := by
  induction tiers with
  | nil => exact h
  | cons tier tighter ih =>
    refine ⟨ih.begins, ih.target, fun hstops => .of_run fun s ends hs => ?_⟩
    obtain ⟨t, n, ht, hrun⟩ := (ih.reads hstops.tighter).run ends hs
    exact ⟨t, n, ht, (bind_ok hrun).trans (iterate_of_rounds .refl (extend_leave hstops _ t))⟩

/-- Operands with operators of a tier between them. -/
theorem runs_operands {meaning : Rule → Reading} {tier : Tier} {tighter : List Tier} {operand : Rule}
    {operators : Phrase} (hoperand : meaning operand = RunsClimb tighter)
    (hoperators : operators.choices = some tier.operators)
    (apart : ∀ kind ∈ tier.operators, continues tighter kind = false)
    (hnode : ∀ left operator right, ¬ IsTarget (tier.node left operator right))
    (h : (operands operand operators).Shows meaning rest ts flaws) :
    RunsClimb (tier :: tighter) rest ts flaws := by
  obtain ⟨us, vs, f, g, rfl, rfl, first, parts⟩ := h
  have first : meaning operand (vs ++ rest) us f := first
  rw [hoperand] at first
  obtain ⟨assignable, begins, htarget, first⟩ := first
  have parts : Repeated ((operators ++ rule operand).Shows meaning) rest vs g := parts
  have next : ∀ {rest ts flaws}, (operators ++ rule operand).Shows meaning rest ts flaws →
      Stops tighter (ts ++ rest) := by
    rintro rest _ _ ⟨_, us, _, _, rfl, rfl, hoperator, -⟩
    obtain ⟨operator, rfl, rfl, hmem⟩ := shows_choices hoperators hoperator
    rintro _ ⟨⟩
    exact apart _ hmem
  -- a tree with an operator is no target, so it has to be the first operand alone
  refine ⟨assignable ∧ vs = [], begins.append vs, ?_, fun hstops => ?_⟩
  · rintro ⟨h, rfl⟩
    rw [List.append_nil]
    exact htarget h
  · refine (first (parts.follow next hstops.tighter)).bind fun left hleft => ?_
    refine over_iterate (Stops tighter) (fun ts t => IsTarget t ↔ assignable ∧ ts = []) [] ?_ next
      hstops.tighter (fun {_ _} hs => extend_leave (hs ▸ hstops) _ _) parts
      (hleft.trans (and_iff_left rfl).symm)
    rintro rest _ _ ⟨_, us, _, f, rfl, rfl, hoperator, right⟩ hrest
    obtain ⟨operator, rfl, rfl, hmem⟩ := shows_choices hoperators hoperator
    have right : meaning operand rest us f := right
    rw [hoperand] at right
    obtain ⟨_, -, -, right⟩ := right
    refine ⟨List.cons_ne_nil _ _, fun {vs left} _ => ?_⟩
    have extended : Over (do return some (tier.node left operator (← climb (prefixed expression) tighter)))
        (fun o => ∃ t, o = some t ∧ (IsTarget t ↔ assignable ∧ vs ++ operator :: us = [])) rest us f :=
      (right hrest).map fun t _ => ⟨_, rfl, fun h => (hnode _ _ _ h).elim, fun h =>
        absurd h.2 (List.append_ne_nil_of_right_ne_nil vs (List.cons_ne_nil operator us))⟩
    refine ComesTo.of_cons extended fun hs => ?_
    have taken := acceptIf_take (fun token => tier.operators.contains token.kind) hs
      (List.contains_iff_mem.mpr hmem)
    exact bind_ok taken

/-! ## Whole expressions -/

theorem runs_operand (h : RunsClimb tiers rest ts flaws) : RunsExpression rest ts flaws := by
  obtain ⟨assignable, begins, -, reads⟩ := h
  refine ⟨begins, fun hstops => ?_⟩
  have run : Passes (assignment expression) rest ts flaws := (reads hstops.1).last fun t _ =>
    ComesTo.get fun _ _ => ComesTo.left hstops.2 (Passes.pure t)
  exact ComesTo.of_unfold run fun ends _ => expression_unfold ends

/-- What can be assigned to is assigned to. -/
theorem passes_assignmentTo {t : Expr} (ht : IsTarget t) (error : SyntaxError) (value : Expr) :
    Passes (assignmentTo t error value) rest [] [] := by
  cases t with
  | var => exact ComesTo.freshId fun _ => Passes.pure _
  | get => exact Passes.pure _
  | _ => exact ht.elim

/-- What cannot be assigned to is an error that is noted. -/
theorem passes_assignmentTo_other {t : Expr} (ht : ¬ IsTarget t) (error : SyntaxError) (value : Expr) :
    Passes (assignmentTo t error value) rest [] [error] := by
  cases t with
  | var | get => exact (ht trivial).elim
  | _ => exact ComesTo.note (Passes.pure _)

/-- An equals sign behind an operand, with the value behind it. -/
theorem runs_assignment {equal : Token} (hequal : equal.kind = .symbol .equal) {assignable : Prop}
    (htarget : RunsOperand (climb (prefixed expression) tiers) startsExpression (Stops tiers) assignable
      (equal :: us ++ rest) ts flaws) (hvalue : RunsExpression rest us more) {own : List SyntaxError}
    (hown : ∀ {t}, (IsTarget t ↔ assignable) → ∀ value, Passes
      (assignmentTo t ⟨(equal :: us ++ rest).length, equal, .invalidTarget⟩ value) rest [] own) :
    RunsExpression rest (ts ++ equal :: us) (flaws ++ more ++ own) := by
  refine ⟨htarget.begins.append _, fun hstops => ?_⟩
  have stop : Stops tiers (equal :: us ++ rest) := by
    rintro _ ⟨⟩
    rw [hequal]
    decide
  have run : Passes (assignment expression) rest (ts ++ equal :: us) (flaws ++ (more ++ own)) := by
    refine (htarget.reads stop).bind fun t ht => ?_
    refine ComesTo.get fun s hs => ?_
    have error : s.error .invalidTarget = ⟨(equal :: us ++ rest).length, equal, .invalidTarget⟩ := by
      rw [State.error, here_cons hs, hs]
    rw [error]
    refine ComesTo.taken hequal ?_
    have value : Over _ (fun _ => True) rest (us ++ []) (more ++ own) :=
      (hvalue.2 hstops).bind fun value _ => hown ht value
    rwa [List.append_nil] at value
  rw [List.append_assoc]
  exact ComesTo.of_unfold run fun ends _ => expression_unfold ends

end

end Lox.Parser
