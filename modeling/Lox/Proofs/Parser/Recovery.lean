import Lox.Proofs.Parser.Foreign
import Lox.Proofs.Parser.Lookahead
import Lox.Proofs.Parser.Relabeling

/-!
# Recovery ends where the statement does

A *segment* is what a statement on one level looks like, well formed or not: tokens up to a semicolon,
without braces and with no other statement inside. However it is malformed, reading one declaration from
its front ends behind its semicolon. A rule stops in front of the semicolon or takes it as its last token
(`Closes`), and from where a rule fails, recovery goes on to the semicolon and no further. So a segment is
read the same way whatever stands behind it.
-/

namespace Lox.Parser

variable {α β : Type}

/-! ## Segments -/

/-- No segment goes on behind these tokens. -/
def walls : List TokenKind :=
  [.symbol .semicolon, .eof, .symbol .leftBrace, .symbol .rightBrace, .keyword .elseKw, .keyword .forKw]

/-- The words, `for` apart, that a segment may start with, but may not have inside. -/
def openers : List TokenKind :=
  [.keyword .classKw, .keyword .funKw, .keyword .varKw, .keyword .ifKw, .keyword .whileKw,
    .keyword .printKw, .keyword .returnKw]

theorem declarators_open : declarators ⊆ openers := by decide

/-- What says which statement follows is a word that opens a segment, or a wall other than a semicolon. -/
theorem leaders_open : ∀ kind ∈ leaders, kind = .symbol .semicolon ∨ kind ∉ walls → kind ∈ openers := by
  decide

/-- In front of the semicolon of a segment stand none but these tokens. -/
structure IsFront (us : List Token) : Prop where
  free : ∀ token ∈ us, token.kind ∉ walls
  inner : ∀ token ∈ us.tail, token.kind ∉ openers

/-- The same tokens up to a semicolon, and behind it `v` in one state and `v'` in the other. -/
structure Facing (us : List Token) (semicolon : Token) (v v' : List Token) (s s' : State) : Prop where
  rest : s.rest = us ++ semicolon :: v
  rest' : s'.rest = us ++ semicolon :: v'
  nextId : s'.nextId = s.nextId
  ends : s.Ends
  ends' : s'.Ends

/-- Two runs that end with the semicolon or fail in front of it, at the same place. -/
inductive Closed (us : List Token) (semicolon : Token) (v v' : List Token) :
    EStateM.Result SyntaxError State α → EStateM.Result SyntaxError State α → Prop
  | behind {a t t'} : t.rest = v → t'.rest = v' → t'.nextId = t.nextId →
      Closed us semicolon v v' (.ok a t) (.ok a t')
  | before {e e' t t' us'} : us' <:+ us → Facing us' semicolon v v' t t' →
      Closed us semicolon v v' (.error e t) (.error e' t')

theorem Closed.widen {us us' : List Token} {semicolon : Token} {v v' : List Token}
    {r r' : EStateM.Result SyntaxError State α} (h : Closed us' semicolon v v' r r')
    (hus : us' <:+ us) : Closed us semicolon v v' r r' := by
  cases h with
  | behind ht ht' hn => exact .behind ht ht' hn
  | before hus' facing => exact .before (hus'.trans hus) facing

/-- The parser reads up to the semicolon, whatever stands behind it. -/
def Closes (us : List Token) (semicolon : Token) (v v' : List Token) (p : Parser α) : Prop :=
  ∀ s s' : State, Facing us semicolon v v' s s' → Closed us semicolon v v' (p s) (p s') ∧
    noticed s' (p s') = (noticed s (p s)).map (SyntaxError.moved v v')

section

variable {us : List Token} {semicolon : Token} {v v' : List Token} {s s' : State}

theorem Facing.abreast (h : Facing us semicolon v v' s s') : s.Abreast v v' s' :=
  ⟨⟨us, semicolon, h.rest, h.rest'⟩, h.nextId, h.ends, h.ends'⟩

/-- A run that leaves the semicolon alone leaves both states in front of it. -/
theorem Facing.leave {p : Parser α} [Forward p] [Local p] (h : Facing us semicolon v v' s s')
    (hsemicolon : semicolon.kind = .symbol .semicolon) (hp : Spares p s) :
    ∃ us', us' <:+ us ∧ Facing us' semicolon v v' (last (p s)) (last (p s')) ∧
      Alike v v' s s' (p s) (p s') := by
  obtain ⟨taken, htaken, hnone⟩ := hp
  obtain ⟨us', rfl, hlast⟩ : ∃ us', us = taken ++ us' ∧ (last (p s)).rest = us' ++ semicolon :: v := by
    rw [h.rest] at htaken
    obtain ⟨ws, hws, hlast⟩ | ⟨ws, hws, hlast⟩ := List.append_eq_append_iff.mp htaken
    · cases ws with
      | nil => exact ⟨[], by simpa using hws.symm, by simpa using hlast.symm⟩
      | cons first ws =>
        obtain rfl : semicolon = first := (List.cons_eq_cons.mp hlast).1
        exact absurd (hsemicolon ▸ by decide) (hnone semicolon (by rw [hws]; simp))
    · exact ⟨ws, hws, hlast⟩
  have alike := (Local.parallel (p := p) v v').alike h.abreast (by
    rw [hlast, List.length_append, List.length_cons]
    omega)
  refine ⟨us', List.suffix_append _ _, ⟨hlast, ?_, alike.abreast.nextId, alike.abreast.ends,
    alike.abreast.ends'⟩, alike⟩
  obtain ⟨ws, token, hws, hws'⟩ := alike.abreast.tokens
  rw [hlast] at hws
  have same : us' ++ [semicolon] = ws ++ [token] :=
    List.append_cancel_right (show us' ++ [semicolon] ++ v = ws ++ [token] ++ v by simpa using hws)
  obtain ⟨rfl, htoken⟩ := List.append_inj' same rfl
  obtain rfl : semicolon = token := (List.cons_eq_cons.mp htoken).1
  exact hws'

end

namespace Closes

variable {us : List Token} {semicolon : Token} {v v' : List Token} {p : Parser α}
  {f : α → Parser β} (hsemicolon : semicolon.kind = .symbol .semicolon)

include hsemicolon in
/-- Behind what leaves the semicolon alone. -/
theorem after (p : Parser α) [Forward p] [Local p] [∀ a, Forward (f a)] (hp : ∀ s, Spares p s)
    (hf : ∀ a us', us' <:+ us → Closes us' semicolon v v' (f a)) : Closes us semicolon v v' (p >>= f) := by
  intro s s' h
  obtain ⟨us', hsuffix, facing, alike⟩ := h.leave hsemicolon (hp s)
  cases hrun : p s with
  | ok a t =>
    rw [hrun] at facing
    obtain ⟨t', hrun', -⟩ := (hrun ▸ alike).ok
    rw [hrun'] at facing
    have facing : Facing us' semicolon v v' t t' := facing
    obtain ⟨closed, noticed⟩ := hf a us' hsuffix t t' facing
    refine ⟨?_, ?_⟩
    · rw [bind_ok hrun, bind_ok hrun']
      exact closed.widen hsuffix
    · rw [noticed_bind_ok hrun, noticed_bind_ok hrun', List.map_append, ← noticed, alike.noticed]
  | error e t =>
    rw [hrun] at facing
    obtain ⟨e', t', hrun', -⟩ := (hrun ▸ alike).error
    rw [hrun'] at facing
    refine ⟨?_, ?_⟩
    · rw [bind_error hrun, bind_error hrun']
      exact .before hsuffix facing
    · rw [noticed_bind_error hrun, noticed_bind_error hrun', alike.noticed]

/-- What comes to a result at once, once the semicolon is taken. -/
theorem finish [Forward p] [∀ a, Forward (f a)] (hp : Closes us semicolon v v' p)
    (hf : ∀ a t t', t.rest = v → t'.rest = v' → ∃ b, f a t = .ok b t ∧ f a t' = .ok b t') :
    Closes us semicolon v v' (p >>= f) := by
  intro s s' h
  obtain ⟨closed, noticed⟩ := hp s s' h
  cases hrun : p s with
  | ok a t =>
    cases hrun' : p s' with
    | error e' t' =>
      rw [hrun, hrun'] at closed
      nomatch closed
    | ok a' t' =>
      rw [hrun, hrun'] at closed
      cases closed with
      | behind ht ht' hn =>
        obtain ⟨b, hb, hb'⟩ := hf a t t' ht ht'
        rw [noticed_bind_ok hrun, noticed_bind_ok hrun', hb, hb', noticed_quiet rfl, noticed_quiet rfl,
          List.append_nil, List.append_nil, bind_ok hrun, bind_ok hrun', hb, hb']
        exact ⟨.behind ht ht' hn, noticed⟩
  | error e t =>
    cases hrun' : p s' with
    | ok a' t' =>
      rw [hrun, hrun'] at closed
      nomatch closed
    | error e' t' =>
      rw [noticed_bind_error hrun, noticed_bind_error hrun', bind_error hrun, bind_error hrun']
      rw [hrun, hrun'] at closed
      cases closed with
      | before hus h => exact ⟨.before hus h, noticed⟩

include hsemicolon in
/-- The semicolon is taken, or the token that stands in its place is in error. -/
theorem mark (hus : ∀ token ∈ us, token.kind ≠ .symbol .semicolon) (place : MarkPlace) :
    Closes us semicolon v v' (expectMark .semicolon place) := by
  intro s s' h
  cases us with
  | nil =>
    rw [expectMark_take place h.rest hsemicolon, expectMark_take place h.rest' hsemicolon]
    have quiet : ∀ {s : State} {rest : List Token}, noticed s
        (.ok semicolon { s with rest := rest } : EStateM.Result SyntaxError State Token) = [] :=
      noticed_quiet rfl
    exact ⟨.behind rfl rfl h.nextId, by rw [quiet, quiet]; rfl⟩
  | cons first us =>
    have misses : ∀ {s : State} {more}, s.rest = first :: us ++ semicolon :: more →
        s.sees (.symbol .semicolon) = false := fun hs => by
      rw [sees_cons hs]
      exact beq_eq_false_iff_ne.mpr (hus first List.mem_cons_self)
    unfold expectMark
    rw [expect_run, expect_run, misses h.rest, misses h.rest', if_neg Bool.false_ne_true,
      if_neg Bool.false_ne_true]
    refine ⟨.before (List.suffix_refl _) h, ?_⟩
    rw [noticed_error (List.append_nil _).symm, noticed_error (List.append_nil _).symm,
      h.abreast.error]
    rfl

include hsemicolon in
/-- A mark that no segment has in front of its semicolon is missed. -/
theorem missing {mark : Symbol} (hmark : TokenKind.symbol mark ∈ walls)
    (hne : mark ≠ .semicolon) (hus : ∀ token ∈ us, token.kind ∉ walls) (place : MarkPlace)
    (g : Token → Parser β) :
    Closes us semicolon v v' (expectMark mark place >>= g) := by
  intro s s' h
  have misses : ∀ {s : State} {more}, s.rest = us ++ semicolon :: more → s.sees (.symbol mark) = false :=
    fun hs => by
      cases us with
      | nil =>
        rw [sees_cons hs, hsemicolon]
        exact beq_eq_false_iff_ne.mpr fun h => hne (TokenKind.symbol.inj h).symm
      | cons first us =>
        rw [sees_cons hs]
        exact beq_eq_false_iff_ne.mpr fun h => hus first List.mem_cons_self (h ▸ hmark)
  have run : ∀ {s : State} {more}, s.rest = us ++ semicolon :: more →
      expectMark mark place s = .error (s.error (.expected (.mark mark place))) s := fun hs => by
    rw [expectMark, expect_run, misses hs]
    rfl
  rw [noticed_bind_error (run h.rest), noticed_bind_error (run h.rest'), bind_error (run h.rest),
    bind_error (run h.rest'), run h.rest, run h.rest']
  refine ⟨.before (List.suffix_refl _) h, ?_⟩
  rw [noticed_error (List.append_nil _).symm, noticed_error (List.append_nil _).symm,
    h.abreast.error]
  rfl

/-- A parser whose runs are those of another one. -/
theorem of_run {q : Parser α} (hrun : ∀ {s : State} {more}, s.rest = us ++ semicolon :: more →
    p s = q s) (hq : Closes us semicolon v v' q) : Closes us semicolon v v' p := by
  intro s s' h
  rw [hrun h.rest, hrun h.rest']
  exact hq s s' h

/-- A parser that takes the first token and goes on as another one. -/
theorem first {token : Token} {q : Parser α} (hrun : ∀ {s : State} {rest}, s.rest = token :: rest →
    p s = q { s with rest := rest }) (hq : Closes us semicolon v v' q) :
    Closes (token :: us) semicolon v v' p := by
  intro s s' h
  have facing : Facing us semicolon v v' { s with rest := us ++ semicolon :: v }
      { s' with rest := us ++ semicolon :: v' } := ⟨rfl, rfl, h.nextId, h.ends, h.ends'⟩
  obtain ⟨closed, noticed⟩ := hq _ _ facing
  rw [hrun h.rest, hrun h.rest']
  exact ⟨closed.widen (List.suffix_cons _ _), noticed⟩

end Closes

/-! ## The rules on a segment -/

/-- No word and no brace among these tokens starts another statement. -/
structure IsPlain (us : List Token) : Prop where
  free : ∀ token ∈ us, token.kind ∉ walls
  inner : ∀ token ∈ us, token.kind ∉ openers

theorem IsPlain.suffix {us us' : List Token} (h : IsPlain us) (hus : us' <:+ us) : IsPlain us' :=
  ⟨fun token hmem => h.free token (hus.subset hmem), fun token hmem => h.inner token (hus.subset hmem)⟩

section

variable {us : List Token} {semicolon : Token} {v v' : List Token}
  (hsemicolon : semicolon.kind = .symbol .semicolon)

include hsemicolon

/-- A value and the semicolon behind it. -/
theorem closes_value {γ : Type} {p : Parser γ} [Forward p] [Local p] (hp : ∀ s, Spares p s)
    (place : MarkPlace) (tree : γ → α) (hus : ∀ token ∈ us, token.kind ∉ walls) :
    Closes us semicolon v v' (do
      let value ← p
      let _ ← expectMark .semicolon place
      return tree value) :=
  .after hsemicolon p hp fun value us' hsuffix =>
    (Closes.mark hsemicolon (fun token hmem hkind => hus token (hsuffix.subset hmem)
      (hkind ▸ by decide)) place).finish fun _ _ _ _ _ => ⟨_, rfl, rfl⟩

theorem closes_expressionStatement (hus : ∀ token ∈ us, token.kind ∉ walls) :
    Closes us semicolon v v' expressionStatement :=
  closes_value hsemicolon spares_expression _ _ hus

theorem closes_printStatement (hus : ∀ token ∈ us, token.kind ∉ walls) :
    Closes us semicolon v v' printStatement :=
  closes_value hsemicolon spares_expression _ _ hus

theorem closes_returnStatement (keyword : Token) (hus : ∀ token ∈ us, token.kind ∉ walls) :
    Closes us semicolon v v' (returnStatement keyword) := by
  rw [returnStatement_eq]
  refine closes_value hsemicolon (fun s => ?_) _ _ hus
  refine Spares.bind (p := sees _) (.still rfl) fun _ t => .ite (.still rfl) ?_
  exact (spares_expression t).bind fun _ _ => .still rfl

theorem closes_varDeclaration (hus : ∀ token ∈ us, token.kind ∉ walls) :
    Closes us semicolon v v' varDeclaration := by
  unfold varDeclaration
  refine .after hsemicolon _ (fun s => .expect (by decide) _) fun name us₁ h₁ => ?_
  refine .after hsemicolon _ (fun s => .accept (by decide)) fun assigned us₂ h₂ => ?_
  have free : ∀ token ∈ us₂, token.kind ∉ walls := fun token hmem =>
    hus token ((h₂.trans h₁).subset hmem)
  have spares : ∀ (value : Parser (Option Expr)), (∀ s, Spares value s) → [Forward value] →
      [Local value] → Closes us₂ semicolon v v' (do
        let initializer ← value
        let _ ← expectMark .semicolon .afterVariable
        return Stmt.varDecl name initializer) :=
    fun value hvalue _ _ => closes_value hsemicolon hvalue _ _ free
  dsimp only
  split
  · exact spares _ fun s => (spares_expression s).bind fun _ _ => .still rfl
  · exact spares _ fun s => .still rfl

/-- A class has a brace behind its name. -/
theorem closes_classDeclaration (d : Parser (Option Stmt)) [Forward d]
    (hus : ∀ token ∈ us, token.kind ∉ walls) : Closes us semicolon v v' (classDeclaration d) := by
  rw [classDeclaration_eq]
  exact .after hsemicolon _ (fun s => .expect (by decide) _) fun _ us' hsuffix =>
    .missing hsemicolon (by decide) (by decide) (fun token hmem => hus token (hsuffix.subset hmem)) _ _

/-- A function has a brace behind its parameters. -/
theorem closes_routine (kind : Routine) (d : Parser (Option Stmt)) [Forward d]
    (hus : ∀ token ∈ us, token.kind ∉ walls) : Closes us semicolon v v' (routine kind d) := by
  unfold routine
  refine .after hsemicolon _ (fun s => .expect (by decide) _) fun _ us₁ h₁ => ?_
  refine .after hsemicolon _ (fun s => .expect (by decide) _) fun _ us₂ h₂ => ?_
  refine .after hsemicolon _ (fun s => .listed fun s => .expect (by decide) _) fun _ us₃ h₃ => ?_
  refine .after hsemicolon _ (fun s => .expect (by decide) _) fun _ us₄ h₄ => ?_
  have suffix := h₄.trans (h₃.trans (h₂.trans h₁))
  exact .missing hsemicolon (by decide) (by decide)
    (fun token hmem => hus token (suffix.subset hmem)) _ _

/-- What stands in parentheses behind a keyword, and a plain statement behind it. -/
theorem closes_condition {opened closed : MarkPlace} {f : Expr → Parser α} (hus : IsPlain us)
    [∀ condition, Forward (f condition)]
    (hf : ∀ condition us, IsPlain us → Closes us semicolon v v' (f condition)) :
    Closes us semicolon v v' (do
      let _ ← expectMark .leftParen opened
      let condition ← expression
      let _ ← expectMark .rightParen closed
      f condition) := by
  refine .after hsemicolon _ (fun s => .expect (by decide) _) fun _ us₁ h₁ => ?_
  refine .after hsemicolon _ spares_expression fun condition us₂ h₂ => ?_
  refine .after hsemicolon _ (fun s => .expect (by decide) _) fun _ us₃ h₃ => ?_
  exact hf condition us₃ (hus.suffix (h₃.trans (h₂.trans h₁)))

section

variable {st : Parser Stmt} [Forward st]
  (hst : ∀ us, IsPlain us → Closes us semicolon v v' st)

include hst

theorem closes_whileStatement (hus : IsPlain us) :
    Closes us semicolon v v' (whileStatement st) :=
  closes_condition hsemicolon hus fun _ us hus => (hst us hus).finish fun _ _ _ _ _ => ⟨_, rfl, rfl⟩

theorem closes_ifStatement (hus : IsPlain us) (hv : NotNext (.keyword .elseKw) v)
    (hv' : NotNext (.keyword .elseKw) v') : Closes us semicolon v v' (ifStatement st) := by
  refine closes_condition hsemicolon hus fun condition us hus => (hst us hus).finish ?_
  intro thenBranch t t' ht ht'
  refine ⟨.ifThen condition thenBranch, ?_, ?_⟩
  · rw [bind_ok (accept_leave (by rw [ht]; exact hv))]
    rfl
  · rw [bind_ok (accept_leave (by rw [ht']; exact hv'))]
    rfl

end

/-- A plain statement is an expression. -/
theorem closes_plain (st : Parser Stmt) (d : Parser (Option Stmt)) (hus : IsPlain us) :
    Closes us semicolon v v' (statementRule st d) := by
  refine .of_run (fun {s more} hs => ?_) (closes_expressionStatement hsemicolon hus.free)
  obtain ⟨token, rest, hrest, hwalls, hopeners⟩ : ∃ token rest, s.rest = token :: rest ∧
      (token.kind = .symbol .semicolon ∨ token.kind ∉ walls) ∧ token.kind ∉ openers := by
    cases us with
    | nil => exact ⟨semicolon, more, hs, .inl hsemicolon, by rw [hsemicolon]; decide⟩
    | cons first us =>
      exact ⟨first, us ++ semicolon :: more, hs, .inr (hus.free first List.mem_cons_self),
        hus.inner first List.mem_cons_self⟩
  refine statementRule_expression st d hrest fun hmem => ?_
  exact hopeners (leaders_open _ hmem hwalls)

variable {st : Parser Stmt} {d : Parser (Option Stmt)} [Forward st] [Forward d]

/-- Whatever a segment starts with, it is read up to its semicolon. -/
theorem closes_declarationBody (hst : ∀ us, IsPlain us → Closes us semicolon v v' st)
    (hus : IsFront us) (hv : NotNext (.keyword .elseKw) v) (hv' : NotNext (.keyword .elseKw) v') :
    Closes us semicolon v v' (declarationBody (statementRule st d) d) := by
  cases us with
  | nil =>
    refine .of_run (fun {s more} hs => ?_) (closes_plain hsemicolon st d ⟨nofun, nofun⟩)
    rw [declarationBody_run _ d hs, hsemicolon]
  | cons first us =>
    have plain : IsPlain us :=
      ⟨fun token hmem => hus.free token (List.mem_cons_of_mem _ hmem), hus.inner⟩
    by_cases hopener : first.kind ∈ openers
    · simp only [openers, List.mem_cons, List.not_mem_nil, or_false] at hopener
      obtain h | h | h | h | h | h | h := hopener
      · refine .first (fun hs => ?_) (closes_classDeclaration hsemicolon d plain.free)
        rw [declarationBody_run _ d hs, h]
      · refine .first (q := do return .funDecl (← routine .function d)) (fun hs => ?_) ?_
        · rw [declarationBody_run _ d hs, h]
          rfl
        · exact (closes_routine hsemicolon .function d plain.free).finish fun _ _ _ _ _ => ⟨_, rfl, rfl⟩
      · refine .first (fun hs => ?_) (closes_varDeclaration hsemicolon plain.free)
        rw [declarationBody_run _ d hs, h]
      · refine .first (fun hs => ?_) (closes_ifStatement hsemicolon hst plain hv hv')
        rw [declarationBody_statement _ d hs (by rw [h]; decide), statementRule_run st d hs, h]
      · refine .first (fun hs => ?_) (closes_whileStatement hsemicolon hst plain)
        rw [declarationBody_statement _ d hs (by rw [h]; decide), statementRule_run st d hs, h]
      · refine .first (fun hs => ?_) (closes_printStatement hsemicolon plain.free)
        rw [declarationBody_statement _ d hs (by rw [h]; decide), statementRule_run st d hs, h]
      · refine .first (fun hs => ?_) (closes_returnStatement hsemicolon first plain.free)
        rw [declarationBody_statement _ d hs (by rw [h]; decide), statementRule_run st d hs, h]
    · have all : IsPlain (first :: us) :=
        ⟨hus.free, List.forall_mem_cons.mpr ⟨hopener, plain.inner⟩⟩
      refine .of_run (fun {s more} hs => ?_) (closes_plain hsemicolon st d all)
      exact declarationBody_statement _ d hs fun hmem => hopener (declarators_open hmem)

end

/-! ## Recovery on a segment -/

theorem startsStatement_eq_false {token : Token} (hwalls : token.kind ∉ walls)
    (hopeners : token.kind ∉ openers) : startsStatement token = false := by
  unfold startsStatement
  split
  case h_9 => rfl
  all_goals
    next hkind =>
      rw [hkind] at hwalls hopeners
      exact absurd (And.intro hwalls hopeners) (by decide)

section

variable {us : List Token} {semicolon : Token} {v v' : List Token} {s s' : State}
  (hsemicolon : semicolon.kind = .symbol .semicolon)

include hsemicolon

/-- Behind a semicolon there is a boundary, and among plain tokens there is none. -/
theorem fromBoundary_plain (hus : IsPlain us) {previous : Token}
    (hprevious : previous.kind ≠ .symbol .semicolon) :
    fromBoundary previous (us ++ semicolon :: v) = v := by
  have onward : ∀ {previous token : Token} {rest}, previous.kind ≠ .symbol .semicolon →
      startsStatement token = false → fromBoundary previous (token :: rest) = fromBoundary token rest := by
    intro previous token rest hprevious htoken
    rw [fromBoundary, htoken, beq_eq_false_iff_ne.mpr hprevious]
    rfl
  induction us generalizing previous with
  | nil =>
    rw [List.nil_append, onward hprevious (by rw [startsStatement, hsemicolon])]
    cases v with
    | nil => rfl
    | cons first v =>
      rw [fromBoundary, hsemicolon]
      rfl
  | cons first us ih =>
    have hfree := hus.free first List.mem_cons_self
    rw [List.cons_append, onward hprevious
      (startsStatement_eq_false hfree (hus.inner first List.mem_cons_self))]
    exact ih (hus.suffix (List.suffix_cons _ _)) fun hkind => hfree (hkind ▸ by decide)

/-- From any place in a segment, recovery goes on to its semicolon. -/
theorem afterOffence_front (hus : IsFront us) {us' : List Token} (hsuffix : us' <:+ us) :
    afterOffence (us' ++ semicolon :: v) = v := by
  cases us' with
  | nil =>
    cases v with
    | nil => rfl
    | cons first v =>
      rw [List.nil_append, afterOffence, fromBoundary, hsemicolon]
      rfl
  | cons first us' =>
    have htail : us' <:+ us.tail := by
      obtain ⟨_ | ⟨before, taken⟩, rfl⟩ := hsuffix
      · exact List.suffix_refl _
      · exact (List.suffix_cons _ _).trans (List.suffix_append _ _)
    have hfirst := hus.free first (hsuffix.subset List.mem_cons_self)
    refine fromBoundary_plain hsemicolon ⟨fun token hmem => ?_, fun token hmem => ?_⟩
      fun hkind => hfirst (hkind ▸ by decide)
    · exact hus.free token (List.mem_of_mem_tail (htail.subset hmem))
    · exact hus.inner token (htail.subset hmem)

/-- A segment is read as one declaration, well formed or not, whatever stands behind it. -/
theorem declaration_facing (hus : IsFront us) (hv : NotNext (.keyword .elseKw) v)
    (hv' : NotNext (.keyword .elseKw) v') (h : Facing us semicolon v v' s s') :
    ∃ o t t', declaration s = .ok o t ∧ declaration s' = .ok o t' ∧ t.rest = v ∧ t'.rest = v' ∧
      noticed s' (declaration s') = (noticed s (declaration s)).map (SyntaxError.moved v v') := by
  obtain ⟨depth, hdepth⟩ : ∃ depth, s.rest.length + s'.rest.length < depth + 2 :=
    ⟨s.rest.length + s'.rest.length, by omega⟩
  rw [declaration_run h.ends (show s.rest.length < depth + 2 by omega),
    declaration_run h.ends' (show s'.rest.length < depth + 2 by omega)]
  have hst : ∀ us, IsPlain us → Closes us semicolon v v' (statementUpTo (depth + 1)) := fun us hus =>
    closes_plain hsemicolon (statementUpTo depth) (declarationUpTo depth) hus
  obtain ⟨closed, hnoticed⟩ := closes_declarationBody hsemicolon (d := declarationUpTo (depth + 1)) hst
    hus hv hv' s s' h
  have body : declarationUpTo (depth + 2) = recovering (declarationBody
    (statementRule (statementUpTo (depth + 1)) (declarationUpTo (depth + 1)))
    (declarationUpTo (depth + 1))) := rfl
  rw [body, noticed_recovering, noticed_recovering, hnoticed]
  generalize hr : declarationBody _ _ s = r at closed
  generalize hr' : declarationBody _ _ s' = r' at closed
  cases closed with
  | behind ht ht' hn =>
    rw [recovering_ok hr, recovering_ok hr']
    exact ⟨_, _, _, rfl, rfl, ht, ht', hr ▸ rfl⟩
  | before hsuffix facing =>
    -- recovery skips to the semicolon in both sources, since nothing in front of it is a boundary
    rw [recovering_error hr, recovering_error hr']
    refine ⟨_, _, _, rfl, rfl, ?_, ?_, hr ▸ rfl⟩
    · rw [facing.rest]
      exact afterOffence_front hsemicolon hus hsuffix
    · rw [facing.rest']
      exact afterOffence_front hsemicolon hus hsuffix

end

end Lox.Parser
