import Lox.Proofs.Parser.Abreast

/-!
# One token of lookahead

A parser looks at the next token and never further. So each rule of the grammar is `Local`, recovery
included: whether a token is a boundary shows in it and in the one before it.
-/

namespace Lox.Parser

variable {α β : Type}

/-! ## Expressions -/

instance local_leaf (tree : Expr) : Local (leaf tree) :=
  inferInstanceAs (Local (skip >>= fun _ => pure tree))

instance local_extend (tier : Tier) (operand : Parser Expr) [Forward operand] [Local operand]
    (left : Expr) : Local (tier.extend operand left) := by
  unfold Tier.extend
  refine @local_bind _ _ _ _ inferInstance (forward_extended tier operand left) inferInstance
    fun taken => ?_
  cases taken <;> infer_instance

instance local_climb (operand : Parser Expr) [Forward operand] [h : Local operand]
    (tiers : List Tier) : Local (climb operand tiers) := by
  induction tiers with
  | nil => exact h
  | cons tier tighter ih =>
    unfold climb
    infer_instance

instance local_primary (e : Parser Expr) [Forward e] [Local e] : Local (primary e) := by
  refine @local_bind _ _ _ _ forward_here (fun token => ?_) local_here fun token => ?_
  · split <;> infer_instance
  · split <;> infer_instance

instance local_application (e : Parser Expr) [Forward e] [Local e] (callee : Expr) :
    Local (application e callee) := by
  unfold application
  infer_instance

instance steps_application (e : Parser Expr) [Forward e] (callee : Expr) :
    Steps (application e callee) := by
  unfold application
  infer_instance

instance local_applied (e : Parser Expr) [Forward e] [Local e] : Local (applied e) := by
  unfold applied
  infer_instance

instance local_prefixed (e : Parser Expr) [Forward e] [Local e] : Local (prefixed e) := by
  unfold prefixed
  infer_instance

/-- An error of a target is no expectation. -/
theorem located_assignmentTo (target : Expr) {error : SyntaxError} (h : ¬ error.IsExpectation)
    (value : Expr) : Located (assignmentTo target error value) := by
  have noting : Located (note error) :=
    { located := fun {s e} _ he hexpected => by
        rw [note_run, noticed_ok rfl, List.mem_singleton] at he
        exact absurd (he ▸ hexpected) h }
  unfold assignmentTo
  split <;> infer_instance

/-- The error of a target stands at the same token in both sources. -/
theorem parallel_assignmentTo {v v' : List Token} (target : Expr) {error : SyntaxError}
    (h : ¬ error.IsExpectation) (value : Expr) :
    Parallel v v' (assignmentTo target error value)
      (assignmentTo target (error.moved v v') value) := by
  have noting : Parallel v v' (note error) (note (error.moved v v')) :=
    { alike := fun abreast _ => by
        rw [note_run, note_run]
        refine ⟨rfl, ⟨abreast.tokens, abreast.nextId, abreast.ends, abreast.ends'⟩, ?_⟩
        rw [noticed_ok rfl, noticed_ok rfl]
        rfl
      fails := fun {s s' e} _ he hexpected => by
        rw [note_run, noticed_ok rfl] at he
        cases he
        exact absurd hexpected h }
  unfold assignmentTo
  split
  · exact Local.parallel v v'
  · exact Local.parallel v v'
  · exact noting.bind fun _ => Local.parallel v v'

theorem not_isExpectation_target (s : State) : ¬ (s.error .invalidTarget).IsExpectation :=
  nofun

instance local_assignment (e : Parser Expr) [Forward e] [Local e] : Local (assignment e) := by
  have valued : ∀ (target : Expr) (s : State) (value : Expr),
      Located (assignmentTo target (s.error .invalidTarget) value) :=
    fun target s => located_assignmentTo target (not_isExpectation_target s)
  have looking : Located (get : Parser State) :=
    { located := fun {s e} _ he _ => by
        rw [get_run, noticed_quiet rfl] at he
        nomatch he }
  refine @Local.mk _ _ ?_ fun v v' => ?_
  · exact inferInstanceAs (Located (climb (prefixed e) tiers >>= fun target =>
      (get : Parser State) >>= fun s => accept (.symbol .equal) >>= fun assigned =>
        if assigned then e >>= assignmentTo target (s.error .invalidTarget) else pure target))
  · refine (Local.parallel v v').bind fun target => .get fun {s s'} abreast => ?_
    refine (Local.parallel v v').bind fun assigned => ?_
    split
    · refine (Local.parallel v v').bind fun value => ?_
      rw [abreast.error]
      exact parallel_assignmentTo target (not_isExpectation_target s) value
    · exact Local.parallel v v'

instance local_expressionUpTo (depth : Nat) : Local (expressionUpTo depth) := by
  induction depth with
  | zero => exact inferInstanceAs (Local (fail _))
  | succ depth ih => exact inferInstanceAs (Local (assignment (expressionUpTo depth)))

instance local_expression : Local expression :=
  .of_runs fun {s s'} ends ends' => by
    refine ⟨expressionUpTo (s.rest.length + s'.rest.length + 1), inferInstance, ?_, ?_⟩
    · exact expression_run ends (by omega)
    · exact expression_run ends' (by omega)

/-! ## Recovery -/

/-- Whether a token is a boundary shows in it and in the one before it. -/
theorem fromBoundary_local {v v' : List Token} {token : Token} (us : List Token) (previous : Token)
    (h : v.length < (fromBoundary previous (us ++ token :: v)).length) :
    ∃ taken, us ++ token :: v = taken ++ fromBoundary previous (us ++ token :: v) ∧
      us ++ token :: v' = taken ++ fromBoundary previous (us ++ token :: v') := by
  induction us generalizing previous with
  | nil =>
    rw [List.nil_append, List.nil_append, fromBoundary, fromBoundary] at *
    split
    · exact ⟨[], rfl, rfl⟩
    · next hboundary =>
      rw [if_neg hboundary] at h
      exact absurd (fromBoundary_suffix token v).length_le (Nat.not_le.mpr h)
  | cons first us ih =>
    rw [List.cons_append, List.cons_append, fromBoundary, fromBoundary] at *
    split
    · exact ⟨[], rfl, rfl⟩
    · next hboundary =>
      rw [if_neg hboundary] at h
      obtain ⟨taken, htaken, htaken'⟩ := ih first h
      exact ⟨first :: taken, congrArg (first :: ·) htaken, congrArg (first :: ·) htaken'⟩

theorem afterOffence_local {v v' : List Token} {token : Token} (us : List Token)
    (h : v.length < (afterOffence (us ++ token :: v)).length) :
    ∃ taken, us ++ token :: v = taken ++ afterOffence (us ++ token :: v) ∧
      us ++ token :: v' = taken ++ afterOffence (us ++ token :: v') := by
  cases us with
  | nil => exact absurd (fromBoundary_suffix token v).length_le (Nat.not_le.mpr h)
  | cons first us =>
    obtain ⟨taken, htaken, htaken'⟩ := fromBoundary_local us first h
    exact ⟨first :: taken, congrArg (first :: ·) htaken, congrArg (first :: ·) htaken'⟩

instance local_recovering (p : Parser α) [Forward p] [hp : Local p] : Local (recovering p) where
  located ends he := by
    rw [noticed_recovering] at he
    exact hp.located ends he
  parallel v v' :=
    { alike := fun {s s'} abreast hlast => by
        cases hrun : p s with
        | ok a t =>
          rw [recovering_ok hrun] at hlast
          have alike := (hp.parallel v v').alike abreast (by rw [hrun]; exact hlast)
          obtain ⟨t', hrun', behind⟩ := (hrun ▸ alike).ok
          refine ⟨?_, ?_, by rw [noticed_recovering, noticed_recovering, alike.noticed]⟩
          · rw [recovering_ok hrun, recovering_ok hrun']
            rfl
          · rw [recovering_ok hrun, recovering_ok hrun']
            exact behind
        | error e t =>
          rw [recovering_error hrun] at hlast
          have hlast : v.length < (afterOffence t.rest).length := hlast
          have before := Nat.lt_of_lt_of_le hlast (afterOffence_suffix t.rest).length_le
          have alike := (hp.parallel v v').alike abreast (by rw [hrun]; exact before)
          obtain ⟨e', t', hrun', behind⟩ := (hrun ▸ alike).error
          refine ⟨?_, ?_, by rw [noticed_recovering, noticed_recovering, alike.noticed]⟩
          · rw [recovering_error hrun, recovering_error hrun']
            rfl
          · -- what recovery skips are the same tokens, up to the one in question at most
            obtain ⟨us, token, ht, ht'⟩ := behind.tokens
            have taken := @afterOffence_local v v' token us (ht ▸ hlast)
            rw [← ht, ← ht'] at taken
            have recovered := behind.take taken hlast
            rw [recovering_error hrun, recovering_error hrun']
            exact ⟨recovered.tokens, recovered.nextId, recovered.ends, recovered.ends'⟩
      fails := fun abreast he hexpected hremaining => by
        rw [noticed_recovering] at he ⊢
        exact (hp.parallel v v').fails abreast he hexpected hremaining }

/-! ## Statements and declarations -/

/-- The parser takes a token if it succeeds. -/
class Consuming (p : Parser α) : Prop where
  shorter {s t : State} {a : α} : p s = .ok a t → t.rest.length < s.rest.length

theorem Consuming.first {p : Parser α} (hp : Consuming p) (f : α → Parser β) [∀ a, Forward (f a)] :
    Consuming (p >>= f) where
  shorter h := by
    obtain ⟨a, s₁, hrun, hmore⟩ := bind_eq_ok h
    exact Nat.lt_of_le_of_lt (Forward.of_ok hmore).rest.length_le (hp.shorter hrun)

theorem Consuming.second (p : Parser α) [Forward p] {f : α → Parser β} (hf : ∀ a, Consuming (f a)) :
    Consuming (p >>= f) where
  shorter h := by
    obtain ⟨a, s₁, hrun, hmore⟩ := bind_eq_ok h
    exact Nat.lt_of_lt_of_le ((hf a).shorter hmore) (Forward.of_ok hrun).rest.length_le

theorem Consuming.accept (kind : TokenKind) (p : Parser α) [Forward p] {q : Parser α}
    (hq : Consuming q) : Consuming (Parser.accept kind >>= fun taken => if taken then p else q) where
  shorter {s t a} h := by
    obtain ⟨token, rest, hrest, hrun⟩ | hrun := accept_cases h
    · have shorter : t.rest.length ≤ rest.length := (Forward.of_ok hrun).rest.length_le
      rw [hrest, List.length_cons]
      exact Nat.lt_succ_of_le shorter
    · exact hq.shorter hrun

theorem consuming_expect (kind : TokenKind) (what : Expectation) : Consuming (expect kind what) where
  shorter {s t a} h := by
    rw [expect_run] at h
    split at h
    · next hsees =>
      obtain ⟨token, rest, hrest, hkind⟩ := exists_of_sees hsees
      cases h
      rw [hrest]
      exact Nat.lt_succ_self _
    · nomatch h

theorem consuming_expressionStatement : Consuming expressionStatement :=
  .second _ fun _ => (consuming_expect _ _).first _

section

variable (st : Parser Stmt) (d : Parser (Option Stmt)) [Forward st] [Forward d]

theorem consuming_statementRule : Consuming (statementRule st d) :=
  .second _ fun _ => .accept _ _ (.accept _ _ (.accept _ _ (.accept _ _ (.accept _ _ (.accept _ _
    consuming_expressionStatement)))))

variable {st} in
omit [Forward st] in
theorem consuming_declarationBody (hst : Consuming st) : Consuming (declarationBody st d) :=
  .accept _ _ (.accept _ _ (.accept _ _ hst))

end

/-- The parser takes a token if there is one. -/
def Advances (p : Parser α) : Prop :=
  ∀ s : State, s.rest ≠ [] → (last (p s)).rest.length < s.rest.length

/-- An offending token is left behind. -/
theorem advances_recovering {p : Parser α} [Forward p] (hp : Consuming p) : Advances (recovering p) := by
  intro s hs
  cases hrun : p s with
  | ok a t =>
    rw [recovering_ok hrun]
    exact hp.shorter hrun
  | error e t =>
    rw [recovering_error hrun]
    have before := (Forward.of_error hrun).rest.length_le
    show (afterOffence t.rest).length < _
    cases ht : t.rest with
    | nil => exact List.length_pos_iff.mpr hs
    | cons offending rest =>
      rw [ht, List.length_cons] at before
      exact Nat.lt_of_le_of_lt (fromBoundary_suffix offending rest).length_le before

theorem advances_declarationUpTo (depth : Nat) : Advances (declarationUpTo (depth + 1)) :=
  advances_recovering (consuming_declarationBody _ (consuming_statementRule _ _))

theorem advances_declaration : Advances declaration :=
  fun s => advances_declarationUpTo s.rest.length s

/-- Where no depth is left, nothing is read. -/
theorem declarationsInside_none (s : State) : declarationsInside (pure none) s = .ok [] s := by
  have along : ∀ (left : List Token) i, ∃ read : List (Option Stmt), read.filterMap id = [] ∧
      collectAlong (fun _ => insideStep (pure none)) left i s = .ok read s := by
    intro left
    induction left with
    | nil => exact fun i => ⟨[], rfl, rfl⟩
    | cons _ left ih =>
      intro i
      unfold collectAlong
      cases hend : s.sees (.symbol .rightBrace) || s.rest.isEmpty with
      | true =>
        refine ⟨[], rfl, ?_⟩
        have stops : insideStep (pure none : Parser (Option Stmt)) s = .ok none s := by
          rw [insideStep_run, hend]
          rfl
        rw [bind_ok stops]
        rfl
      | false =>
        obtain ⟨read, hread, hrun⟩ := ih (i + 1)
        refine ⟨none :: read, hread, ?_⟩
        have goesOn : insideStep (pure none : Parser (Option Stmt)) s = .ok (some none) s := by
          rw [insideStep_run, hend]
          rfl
        rw [bind_ok goesOn]
        dsimp only
        rw [bind_ok hrun]
        rfl
  obtain ⟨read, hread, hrun⟩ := along s.rest 0
  rw [declarationsInside_eq]
  exact (bind_ok (x := collect _) hrun).trans (by rw [hread]; rfl)

/-- Items are read up to a closing brace or the end. -/
theorem steps_inside {p : Parser α} [Forward p] (hp : ∀ {s t : State} {a : α}, s.rest ≠ [] →
    p s = .ok a t → t.rest.length < s.rest.length) : Steps (insideStep p) where
  shorter {s t a} h := by
    rw [insideStep_run] at h
    split at h
    · cases h
    · next hend =>
      obtain ⟨b, s₁, hrun, hpure⟩ := bind_eq_ok h
      cases hpure
      refine hp (fun hempty => hend ?_) hrun
      rw [hempty]
      exact Bool.or_true _
  declines {s} hs := by
    rw [insideStep_run, hs, List.isEmpty_nil, Bool.or_true]
    rfl

/-- A method takes its name at least. -/
theorem steps_methods (d : Parser (Option Stmt)) [Forward d] :
    Steps (insideStep (Parser.routine .method d)) :=
  steps_inside fun _ => ((consuming_expect _ _).first _).shorter

theorem steps_of_advances {p : Parser α} [Forward p] (hp : Advances p) : Steps (insideStep p) :=
  steps_inside fun hs hrun => by
    have shorter := hp _ hs
    rwa [hrun] at shorter

theorem steps_declarationStep : Steps declarationStep where
  shorter {s t a} h := by
    by_cases hs : s.rest = []
    · nomatch (declarationStep_end hs).symm.trans h
    · rw [declarationStep_take hs] at h
      obtain ⟨b, s₁, hrun, hpure⟩ := bind_eq_ok h
      cases hpure
      have shorter := advances_declaration s hs
      rwa [hrun] at shorter
  declines hs := declarationStep_end hs

section

set_option synthInstance.maxSize 4000

variable (st : Parser Stmt) (d : Parser (Option Stmt)) [Forward st] [Forward d] [Local st]

instance local_insideStep (p : Parser α) [Forward p] [Local p] : Local (insideStep p) := by
  unfold insideStep
  infer_instance

instance local_varDeclaration : Local varDeclaration := by
  unfold varDeclaration
  dsimp only
  infer_instance

instance local_expressionStatement : Local expressionStatement := by
  unfold expressionStatement
  infer_instance

instance local_printStatement : Local printStatement := by
  unfold printStatement
  infer_instance

instance local_optionalBefore (mark : Symbol) : Local (optionalBefore mark) := by
  unfold optionalBefore
  infer_instance

instance local_returnStatement (keyword : Token) : Local (returnStatement keyword) := by
  rw [returnStatement_eq]
  infer_instance

instance local_ifStatement : Local (ifStatement st) := by
  unfold ifStatement
  infer_instance

instance local_whileStatement : Local (whileStatement st) := by
  unfold whileStatement
  infer_instance

instance local_forInitializer : Local forInitializer := by
  unfold forInitializer
  infer_instance

instance local_forStatement : Local (forStatement st) := by
  rw [forStatement_eq]
  infer_instance

theorem local_declarationsInside [Local d] (advances : d = pure none ∨ Advances d) :
    Local (declarationsInside d) := by
  obtain rfl | advances := advances
  · refine .of_quiet (fun s => ?_) fun {v v' s s'} h _ => ?_
    · rw [declarationsInside_none]
      exact noticed_quiet rfl
    · rw [declarationsInside_none, declarationsInside_none]
      exact .quiet h rfl rfl []
  · have steps := steps_of_advances advances
    rw [declarationsInside_eq]
    infer_instance

variable {d} in
theorem local_block (h : Local (declarationsInside d)) : Local (block d) := by
  unfold block
  infer_instance

variable {d} in
theorem local_routine (h : Local (declarationsInside d)) (kind : Routine) :
    Local (routine kind d) := by
  have block := local_block h
  unfold routine
  infer_instance

variable {d} in
theorem local_classDeclaration (h : Local (declarationsInside d)) : Local (classDeclaration d) := by
  have routine := local_routine h .method
  have steps := steps_methods d
  rw [classDeclaration_eq, methodsInside_eq]
  infer_instance

theorem local_statementRule (h : Local (declarationsInside d)) : Local (statementRule st d) := by
  have block := local_block h
  unfold statementRule
  infer_instance

theorem local_declarationRule (h : Local (declarationsInside d)) : Local (declarationRule st d) := by
  have routine := local_routine h .function
  have classes := local_classDeclaration h
  unfold declarationRule
  infer_instance

end

theorem local_upTo (depth : Nat) :
    Local (statementUpTo depth) ∧ Local (declarationUpTo depth) := by
  induction depth with
  | zero => exact ⟨inferInstanceAs (Local (fail _)), inferInstanceAs (Local (pure none))⟩
  | succ depth ih =>
    obtain ⟨_, _⟩ := ih
    have advances : declarationUpTo depth = pure none ∨ Advances (declarationUpTo depth) := by
      cases depth with
      | zero => exact .inl rfl
      | succ depth => exact .inr (advances_declarationUpTo depth)
    have inside := local_declarationsInside (declarationUpTo depth) advances
    have statement := local_statementRule (statementUpTo depth) (declarationUpTo depth) inside
    exact ⟨statement, local_declarationRule _ (declarationUpTo depth) inside⟩

instance local_declarationUpTo (depth : Nat) : Local (declarationUpTo depth) :=
  (local_upTo depth).2

instance local_declaration : Local declaration :=
  .of_runs fun {s s'} ends ends' => by
    refine ⟨declarationUpTo (s.rest.length + s'.rest.length + 1), inferInstance, ?_, ?_⟩
    · exact declaration_run ends (by omega)
    · exact declaration_run ends' (by omega)

instance local_program : Local program := by
  have steps := steps_declarationStep
  have step : Local declarationStep := by
    unfold declarationStep
    infer_instance
  rw [program_eq]
  infer_instance

end Lox.Parser
