import Lox.Proofs.Parser.Lookahead
import Lox.Proofs.Parser.Walk

/-!
# The parser makes progress

The parser comes to an end by itself on every list of tokens (`parser_progresses`). Rules that nest do so
behind a token that was taken, so that nothing is ever asked of what stands at the bottom of the nesting
(`NestingEnds`). A round of a loop takes a token, so that no loop is cut off by its bound (`LoopsEnd`), and
neither are those over declarations, since each declaration takes one, in error or not
(`DeclarationsProgress`). Recovery stops at the first boundary behind the offending token
(`RecoveryStops`). And all the time the parser looks at tokens up to the first end only, none of them behind
one that it has looked at before (`ReadsWithin`).
-/

namespace Lox.Parser

variable {α : Type}

/-! ## Loops -/

/-- With a round for each token that is left, more rounds make no difference. -/
def EndsIterating (step : α → Parser (Option α)) : Prop :=
  ∀ (s : State) (left : List Token) (a : α), s.rest.length ≤ left.length →
    iterateAlong step left a s = iterate step a s

/-- With a round for each token that is left, more rounds make no difference. -/
def EndsCollecting (step : Nat → Parser (Option α)) : Prop :=
  ∀ (s : State) (left : List Token) (i : Nat), s.rest.length ≤ left.length →
    collectAlong step left i s = collectAlong step s.rest i s

/-- No loop of the grammar is cut off. -/
structure LoopsEnd : Prop where
  operators : ∀ (tier : Tier) (tighter : List Tier),
    EndsIterating (tier.extend (climb (prefixed expression) tighter))
  applications : EndsIterating (application expression)
  arguments : EndsCollecting (commaStep .tooManyArguments expression)
  parameters : EndsCollecting
    (commaStep .tooManyParameters (expect .identifier .parameterName))
  methods : EndsCollecting fun _ => insideStep (routine .method declaration)
  declarations : EndsCollecting fun _ => insideStep declaration
  program : EndsCollecting fun _ => declarationStep

theorem endsIterating_of_steps {step : α → Parser (Option α)} [∀ a, Steps (step a)] :
    EndsIterating step :=
  fun _ _ _ hleft => iterateAlong_run hleft (Nat.le_refl _)

theorem endsCollecting_of_steps {step : Nat → Parser (Option α)} [∀ i, Steps (step i)] :
    EndsCollecting step :=
  fun _ _ _ hleft => collectAlong_run hleft (Nat.le_refl _)

instance steps_commaStep (issue : SyntaxIssue) (item : Parser α) [Forward item] (index : Nat) :
    Steps (commaStep issue item index) := by
  unfold commaStep
  infer_instance

theorem loopsEnd : LoopsEnd where
  operators _ _ := endsIterating_of_steps
  applications := endsIterating_of_steps
  arguments := endsCollecting_of_steps
  parameters := endsCollecting_of_steps
  methods :=
    have := steps_methods declaration
    endsCollecting_of_steps
  declarations :=
    have := steps_of_advances advances_declaration
    endsCollecting_of_steps
  program :=
    have := steps_declarationStep
    endsCollecting_of_steps

/-! ## Nesting -/

/-- The rules for statements and declarations, from the parsers for those inside. -/
def nestedRules (inner : Parser Stmt × Parser (Option Stmt)) : Parser Stmt × Parser (Option Stmt) :=
  (statementRule inner.1 inner.2, declarationRule (statementRule inner.1 inner.2) inner.2)

/-- Rules nest less deep than there are tokens left, whatever parser stands at the bottom. So they read what
the same rules read with nothing but themselves inside. -/
structure NestingEnds (s : State) : Prop where
  expression : ∀ (bottom : Parser Expr) (depth : Nat), s.rest.length < depth →
    assignment^[depth] bottom s = Parser.expression s
  statement : ∀ (bottom : Parser Stmt × Parser (Option Stmt)) (depth : Nat), s.rest.length < depth →
    (nestedRules^[depth] bottom).1 s = Parser.statement s
  declaration : ∀ (bottom : Parser Stmt × Parser (Option Stmt)) (depth : Nat), s.rest.length < depth →
    (nestedRules^[depth] bottom).2 s = Parser.declaration s
  unfoldExpression : Parser.expression s = assignment Parser.expression s
  unfoldStatement : Parser.statement s = statementRule Parser.statement Parser.declaration s
  unfoldDeclaration : Parser.declaration s = declarationRule Parser.statement Parser.declaration s

/-- With any parser at the bottom, expressions are read as with none. -/
theorem agree_bottom (bottom : Parser Expr) (depth : Nat) :
    AgreeBelow depth (expressionUpTo depth) (assignment^[depth] bottom) := by
  induction depth with
  | zero => exact fun _ _ hs => absurd hs (Nat.not_lt_zero _)
  | succ depth ih =>
    rw [Function.iterate_succ_apply']
    exact assignment_agree ih

theorem agree_bottoms (bottom : Parser Stmt × Parser (Option Stmt)) (depth : Nat) :
    AgreeBelow depth (statementUpTo depth) (nestedRules^[depth] bottom).1 ∧
      AgreeBelow depth (declarationUpTo depth) (nestedRules^[depth] bottom).2 := by
  induction depth with
  | zero =>
    exact ⟨fun _ _ hs => absurd hs (Nat.not_lt_zero _), fun _ _ hs => absurd hs (Nat.not_lt_zero _)⟩
  | succ depth ih =>
    rw [Function.iterate_succ_apply']
    have statement := statementRule_agree ih.1 ih.2
    exact ⟨statement, declarationRule_agree statement ih.2⟩

theorem nestingEnds {s : State} (ends : s.Ends) : NestingEnds s where
  expression bottom depth hdepth :=
    (agree_bottom bottom depth s ends hdepth).symm.trans (expression_run ends hdepth).symm
  statement bottom depth hdepth :=
    ((agree_bottoms bottom depth).1 s ends hdepth).symm.trans (statement_run ends hdepth).symm
  declaration bottom depth hdepth :=
    ((agree_bottoms bottom depth).2 s ends hdepth).symm.trans (declaration_run ends hdepth).symm
  unfoldExpression := expression_unfold ends
  unfoldStatement := statement_unfold ends
  unfoldDeclaration := declaration_unfold ends

/-! ## Declarations -/

/-- A declaration in front of the end takes a token, in error or not. So the loops over declarations go on
exactly up to where they should stop. -/
structure DeclarationsProgress (s : State) : Prop where
  recovers : ∀ e t, declarationBody statement declaration s = .error e t →
    declaration s = .ok none { t with rest := afterOffence t.rest, errors := t.errors ++ [e] }
  taken : s.rest ≠ [] → ∃ o t, declaration s = .ok o t ∧ s.Leads t ∧ t.rest.length < s.rest.length
  programEnd : s.rest = [] → program s = .ok [] s
  program : ∀ o t, s.rest ≠ [] → declaration s = .ok o t →
    program s = ((o.toList ++ ·) <$> Parser.program) t
  insideEnd : s.rest = [] ∨ s.sees (.symbol .rightBrace) → declarationsInside declaration s = .ok [] s
  inside : ∀ o t, s.rest ≠ [] → ¬ s.sees (.symbol .rightBrace) → declaration s = .ok o t →
    declarationsInside declaration s = ((o.toList ++ ·) <$> declarationsInside declaration) t

theorem declaration_ok (s : State) : ∃ o t, declaration s = .ok o t := by
  show ∃ o t, declarationUpTo (s.rest.length + 1) s = .ok o t
  rw [declarationUpTo, declarationRule, recovering]
  split
  · exact ⟨_, _, rfl⟩
  · exact ⟨_, _, rfl⟩

theorem collectAlong_index (step : Parser (Option α)) (left : List Token) (i j : Nat) :
    collectAlong (fun _ => step) left i = collectAlong (fun _ => step) left j := by
  induction left generalizing i j with
  | nil => rfl
  | cons _ left ih =>
    unfold collectAlong
    rw [ih (i + 1) (j + 1)]

/-- A loop goes on behind its first round. -/
theorem collect_more {step : Parser (Option α)} [Steps step] {s t : State} {a : α}
    (h : step s = .ok (some a) t) :
    collect (fun _ => step) s = ((a :: ·) <$> collect fun _ => step) t := by
  have shorter := Steps.shorter h
  obtain ⟨first, left, hrest⟩ := List.exists_cons_of_ne_nil (List.ne_nil_of_length_pos (Nat.zero_lt_of_lt shorter))
  rw [hrest, List.length_cons] at shorter
  have again : collectAlong (fun _ => step) left 1 t = collect (fun _ => step) t := by
    rw [collectAlong_index step left 1 0]
    exact collectAlong_run (Nat.le_of_lt_succ shorter) (Nat.le_refl _)
  have round : collect (fun _ => step) s =
      (collectAlong (fun _ => step) left 1 >>= fun more => pure (a :: more)) t := by
    show collectAlong (fun _ => step) s.rest 0 s = _
    rw [hrest]
    exact bind_ok h
  rw [round]
  show EStateM.bind _ _ t = EStateM.map _ _ t
  rw [EStateM.bind, EStateM.map, again]
  cases collect (fun _ => step) t <;> rfl

theorem collect_end {step : Parser (Option α)} {s : State} (hs : step s = .ok none s) :
    collect (fun _ => step) s = .ok [] s :=
  collect_of_collects (.stop hs)

theorem declaration_shortens {s : State} (hs : s.rest ≠ []) :
    ∃ o t, declaration s = .ok o t ∧ s.Leads t ∧ t.rest.length < s.rest.length := by
  obtain ⟨o, t, hrun⟩ := declaration_ok s
  have shorter := advances_declaration s hs
  rw [hrun] at shorter
  exact ⟨o, t, hrun, Forward.of_ok hrun, shorter⟩

/-- The declarations of a list without those that were in error. -/
theorem filterMap_more {collected : Parser (List (Option α))} {s t : State} {o : Option α}
    (h : collected s = ((o :: ·) <$> collected) t) :
    (collected >>= fun read => pure (read.filterMap id) : Parser (List α)) s =
      ((o.toList ++ ·) <$> (collected >>= fun read => pure (read.filterMap id))) t := by
  show EStateM.bind _ _ s = EStateM.map _ (EStateM.bind _ _) t
  change _ = EStateM.map _ _ t at h
  rw [EStateM.bind, h, EStateM.map, EStateM.map, EStateM.bind]
  cases collected t with
  | ok read u => cases o <;> rfl
  | error e u => rfl

theorem declarationsProgress {s : State} (ends : s.Ends) : DeclarationsProgress s where
  recovers e t hrun := (declaration_unfold ends).trans (recovering_error hrun)
  taken := declaration_shortens
  programEnd hs := by
    rw [program_eq, bind_ok (collect_end (declarationStep_end hs))]
    rfl
  program o t hs hrun := by
    have steps := steps_declarationStep
    have first : declarationStep s = .ok (some o) t := (declarationStep_take hs).trans (map_ok hrun)
    exact filterMap_more (@collect_more _ _ steps _ _ _ first)
  insideEnd hs := by
    have stops : insideStep declaration s = .ok none s := by
      rw [insideStep_run, if_pos (by rcases hs with hs | hs <;> simp [hs])]
    rw [declarationsInside_eq, bind_ok (collect_end stops)]
    rfl
  inside o t hs hbrace hrun := by
    have steps := steps_of_advances advances_declaration
    have first : insideStep declaration s = .ok (some o) t := by
      rw [insideStep_run, if_neg (by simp [hs, hbrace])]
      exact map_ok hrun
    exact filterMap_more (@collect_more _ _ steps _ _ _ first)

/-! ## Recovery -/

/-- The words with which a statement starts. -/
def starters : List TokenKind :=
  [.keyword .classKw, .keyword .funKw, .keyword .varKw, .keyword .forKw, .keyword .ifKw,
    .keyword .whileKw, .keyword .printKw, .keyword .returnKw]

/-- Behind the token, these tokens begin where a statement does: nothing is left, a semicolon is in front, or
one of the words comes next. -/
def IsBoundary (previous : Token) (tokens : List Token) : Prop :=
  tokens = [] ∨ previous.kind = .symbol .semicolon ∨ ∃ token ∈ tokens.head?, token.kind ∈ starters

theorem startsStatement_iff (token : Token) : startsStatement token = true ↔ token.kind ∈ starters := by
  obtain ⟨kind, lexeme, line⟩ := token
  cases kind with
  | keyword word => cases word <;> simp [startsStatement, starters]
  | _ => simp [startsStatement, starters]

theorem isBoundary_cons {previous token : Token} {rest : List Token} :
    IsBoundary previous (token :: rest) ↔
      (previous.kind == .symbol .semicolon || startsStatement token) = true := by
  simp [IsBoundary, startsStatement_iff]

/-- The tokens are skipped up to the first boundary. -/
structure StopsAt (previous : Token) (tokens skipped rest : List Token) : Prop where
  split : tokens = skipped ++ rest
  boundary : IsBoundary ((previous :: skipped).getLast (List.cons_ne_nil _ _)) rest
  first : ∀ us vs, tokens = us ++ vs → us.length < skipped.length →
    ¬ IsBoundary ((previous :: us).getLast (List.cons_ne_nil _ _)) vs

theorem fromBoundary_stops (previous : Token) (tokens : List Token) :
    ∃ skipped, StopsAt previous tokens skipped (fromBoundary previous tokens) := by
  induction tokens generalizing previous with
  | nil => exact ⟨[], rfl, .inl rfl, fun _ _ _ h => absurd h (Nat.not_lt_zero _)⟩
  | cons token rest ih =>
    rw [fromBoundary]
    split
    · next hstop => exact ⟨[], rfl, isBoundary_cons.mpr hstop, fun _ _ _ h => absurd h (Nat.not_lt_zero _)⟩
    · next hgoes =>
      obtain ⟨skipped, htokens, hboundary, hfirst⟩ := ih token
      refine ⟨token :: skipped, congrArg _ htokens, hboundary, fun us vs hsplit hshort => ?_⟩
      cases us with
      | nil =>
        obtain rfl : token :: rest = vs := hsplit
        exact fun hstop => hgoes (isBoundary_cons.mp hstop)
      | cons first us =>
        obtain ⟨rfl, hrest⟩ := List.cons.inj hsplit
        exact hfirst us vs hrest (Nat.lt_of_succ_lt_succ hshort)

/-! ## The cursor -/

/-- The tokens as they are read: with an end behind them, unless the last one is an end. -/
def withEnd (tokens : List Token) : List Token :=
  if tokens.getLast?.map (·.kind) = some .eof then tokens
  else tokens ++ [.eof ((tokens.getLast?.map (·.line)).getD 1)]

/-- The place of the first end. -/
def endIndex (tokens : List Token) : Nat := tokens.findIdx (·.kind == .eof)

/-- How many tokens have been taken up to a state. -/
def State.cursor (tokens : List Token) (s : State) : Nat := endIndex tokens - s.rest.length

/-- The state stands at its cursor, which is not behind the first end. The token that is looked at is the one
at the cursor, and the one in front of it is there as well. -/
structure State.StandsIn (tokens : List Token) (s : State) : Prop where
  rest : s.rest = (tokens.take (endIndex tokens)).drop (s.cursor tokens)
  cursor_le : s.cursor tokens ≤ endIndex tokens
  here : tokens[s.cursor tokens]? = some s.here
  previous : (tokens[s.cursor tokens - 1]?).isSome

/-- From the start on, in each state in which the parser looks at a token, and in the last one, it stands at a
token up to the first end, and not in front of where it stood before. -/
structure ReadsWithin (p : Parser α) [Walked p] (start : State) (tokens : List Token) : Prop where
  stands : ∀ s ∈ start :: visits p start ++ [last (p start)], s.StandsIn tokens
  ascends : ((start :: visits p start ++ [last (p start)]).map (·.cursor tokens)).Pairwise (· ≤ ·)

/-- The first end is given or added, and it is what is left behind the tokens that are read. -/
theorem start_withEnd (n : OccurrenceId) (tokens : List Token) :
    (State.start n tokens).rest = (withEnd tokens).takeWhile (·.kind != .eof) ∧
      (withEnd tokens).find? (·.kind == .eof) = some (State.start n tokens).ending := by
  unfold State.start withEnd
  dsimp only
  split
  · next hlast =>
    obtain ⟨token, htoken, hkind⟩ := Option.map_eq_some_iff.mp hlast
    have there : (tokens.find? (·.kind == .eof)).isSome :=
      List.find?_isSome.mpr ⟨token, List.mem_of_getLast? htoken, by simp [hkind]⟩
    obtain ⟨ending, hending⟩ := Option.isSome_iff_exists.mp there
    exact ⟨rfl, by rw [hending]; rfl⟩
  · refine ⟨?_, ?_⟩
    · rw [List.takeWhile_append]
      split
      · next hall =>
        rw [(List.takeWhile_prefix _).eq_of_length hall]
        exact (List.append_nil tokens).symm
      · rfl
    · rw [List.find?_append]
      cases tokens.find? (·.kind == .eof) <;> rfl

/-- In front of the first end are the tokens that are read. -/
theorem start_take (n : OccurrenceId) (tokens : List Token) :
    (State.start n tokens).rest = (withEnd tokens).take (endIndex (withEnd tokens)) ∧
      (State.start n tokens).rest.length = endIndex (withEnd tokens) ∧
      (withEnd tokens)[endIndex (withEnd tokens)]? = some (State.start n tokens).ending := by
  obtain ⟨hrest, hending⟩ := start_withEnd n tokens
  have ending : (withEnd tokens)[endIndex (withEnd tokens)]? = some (State.start n tokens).ending :=
    List.find?_eq_getElem?_findIdx.symm.trans hending
  have taken : (State.start n tokens).rest = (withEnd tokens).take (endIndex (withEnd tokens)) := by
    rw [hrest, List.takeWhile_eq_take_findIdx_not]
    simp only [bne, Bool.not_not]
    rfl
  have inside := (List.getElem?_eq_some_iff.mp ending).1
  exact ⟨taken, by rw [taken, List.length_take_of_le (Nat.le_of_lt inside)], ending⟩

/-- Where the parser is led to, it stands at a token. -/
theorem standsIn_of_leads {n : OccurrenceId} {tokens : List Token} {s : State}
    (h : (State.start n tokens).Leads s) : s.StandsIn (withEnd tokens) := by
  obtain ⟨htake, hlength, hending⟩ := start_take n tokens
  have rest : s.rest =
      ((withEnd tokens).take (endIndex (withEnd tokens))).drop (s.cursor (withEnd tokens)) := by
    have dropped := drop_of_suffix h.rest
    rw [hlength, htake] at dropped
    exact dropped.symm
  have le : s.rest.length ≤ endIndex (withEnd tokens) := hlength ▸ h.rest.length_le
  have here : (withEnd tokens)[s.cursor (withEnd tokens)]? = some s.here := by
    cases hs : s.rest with
    | nil => rw [State.cursor, State.here, hs, List.length_nil, Nat.sub_zero, hending, ← h.ending]; rfl
    | cons token more =>
      -- a token in front of the end is the first of those that are left
      have inside : s.cursor (withEnd tokens) < endIndex (withEnd tokens) := by
        rw [hs, List.length_cons] at le
        rw [State.cursor, hs, List.length_cons]
        omega
      have first : s.rest[0]? = some s.here := by rw [State.here, hs]; rfl
      rw [rest, List.getElem?_drop, Nat.add_zero, List.getElem?_take_of_lt inside] at first
      exact first
  refine ⟨rest, Nat.sub_le _ _, here, ?_⟩
  have inside := (List.getElem?_eq_some_iff.mp here).1
  rw [List.getElem?_eq_getElem (Nat.lt_of_le_of_lt (Nat.sub_le _ _) inside)]
  rfl

theorem readsWithin (p : Parser α) [hp : Walked p] (n : OccurrenceId) (tokens : List Token) :
    ReadsWithin p (State.start n tokens) (withEnd tokens) := by
  have ordered := (hp.leads (State.start n tokens)).pairwise
  refine ⟨fun s hs => ?_, List.pairwise_map.mpr (ordered.imp fun {s t} hleads => ?_)⟩
  · rcases List.mem_cons.mp hs with rfl | hs
    · exact standsIn_of_leads (.refl _)
    · exact standsIn_of_leads ((List.pairwise_cons.mp ordered).1 s hs)
  · exact Nat.sub_le_sub_left hleads.rest.length_le _

/-- The parser makes progress, and reads no further than to the end. On every list of tokens it looks at
tokens up to the first end only, one behind the other, whatever comes of it. Its loops and its nesting come to
an end by themselves, since each round and each level takes a token; so does each declaration that is not at
the end already, and where one is in error, reading goes on at the first boundary behind the offending
token. -/
theorem parser_progresses :
    (∀ n tokens, ReadsWithin program (State.start n tokens) (withEnd tokens) ∧
        ReadsWithin loneExpression (State.start n tokens) (withEnd tokens) ∧
        (State.start n tokens).Ends) ∧
      LoopsEnd ∧
      (∀ s : State, s.Ends → NestingEnds s ∧ DeclarationsProgress s) ∧
      afterOffence [] = [] ∧
      ∀ offending rest, ∃ skipped, StopsAt offending rest skipped (afterOffence (offending :: rest)) :=
  ⟨fun n tokens => ⟨readsWithin _ n tokens, readsWithin _ n tokens, State.start_ends n tokens⟩, loopsEnd,
    fun _ ends => ⟨nestingEnds ends, declarationsProgress ends⟩, rfl, fromBoundary_stops⟩

/-- A block is left open at the first end, behind which there is another token. The statement in it is in
error at the semicolon and the block at the end, and each token up to there is looked at. -/
theorem parser_progresses_block :
    let tokens : List Token := [⟨.symbol .leftBrace, "\x7b", 1⟩, ⟨.keyword .printKw, "print", 1⟩,
      ⟨.symbol .semicolon, ";", 1⟩, .eof 1, ⟨.identifier, "x", 2⟩]
    let start := State.start 0 tokens
    withEnd tokens = tokens ++ [.eof 2] ∧
      ((visits program start).map (·.cursor (withEnd tokens))).dedup = [0, 1, 2, 3] ∧
      (last (program start)).errors.map (·.remaining) = [1, 0] ∧
      ReadsWithin program start (withEnd tokens) ∧ NestingEnds start ∧ DeclarationsProgress start := by
  intro tokens start
  obtain ⟨reads, -, ends, -⟩ := parser_progresses
  obtain ⟨within, -, hends⟩ := reads 0 tokens
  exact ⟨by decide +kernel, by decide +kernel, by decide +kernel, within, ends start hends⟩

end Lox.Parser
