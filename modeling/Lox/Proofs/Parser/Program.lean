import Lox.Proofs.Parser.Statement

/-!
# The parser of programs reads what the grammar spells

Tokens that spell a declaration are taken, if no `else` follows an open one. Together with what the
parser gives, this says of whole lists of tokens what they are parsed as: the tree that they spell, if
they spell one (`parseProgram_eq_ok`, `parseExpression_eq_ok`).
-/

namespace Lox.Parser

variable {α : Type}

/-! ## First tokens -/

/-- The words that say that no statement follows, and the marks that stand behind one. -/
def neverFirst : List TokenKind :=
  [.keyword .classKw, .keyword .funKw, .keyword .varKw, .keyword .elseKw, .symbol .rightBrace]

theorem declarators_subset : declarators ⊆ neverFirst := by decide

theorem statement_head {isOpen : Bool} {n n' : Nat} {ts : List Token} {t : Stmt}
    (h : ReadsStatement isOpen n ts t n') :
    ∃ token us, ts = token :: us ∧ token.kind ∉ neverFirst := by
  cases h with
  | expression h =>
    obtain ⟨token, us, rfl, htoken⟩ := reads_head h
    exact ⟨token, _, rfl, not_mem_of_startsExpression htoken (by decide)⟩
  | print h => exact ⟨_, _, rfl, by rw [h]; decide⟩
  | returns h => exact ⟨_, _, rfl, by rw [h]; decide⟩
  | block h => exact ⟨_, _, rfl, by rw [h]; decide⟩
  | ifThen h => exact ⟨_, _, rfl, by rw [h]; decide⟩
  | ifElse h => exact ⟨_, _, rfl, by rw [h]; decide⟩
  | whileLoop h => exact ⟨_, _, rfl, by rw [h]; decide⟩
  | forLoop h => exact ⟨_, _, rfl, by rw [h]; decide⟩

/-- No declaration starts with what stands behind one. -/
theorem declaration_head {isOpen : Bool} {n n' : Nat} {ts : List Token} {t : Stmt}
    (h : ReadsDeclaration isOpen n ts t n') :
    ∃ token us, ts = token :: us ∧ token.kind ≠ .keyword .elseKw ∧
      token.kind ≠ .symbol .rightBrace := by
  cases h with
  | statement h =>
    obtain ⟨token, us, rfl, htoken⟩ := statement_head h
    exact ⟨token, us, rfl, fun h => htoken (by rw [h]; decide), fun h => htoken (by rw [h]; decide)⟩
  | varDecl h => exact ⟨_, _, rfl, by rw [h]; decide, by rw [h]; decide⟩
  | funDecl h => exact ⟨_, _, rfl, by rw [h]; decide, by rw [h]; decide⟩
  | classDecl h => exact ⟨_, _, rfl, by rw [h]; decide, by rw [h]; decide⟩

/-! ## Parts of declarations are taken -/

theorem map_ok {β : Type} {f : α → β} {p : Parser α} {s s' : State} {a : α}
    (h : p s = .ok a s') : (f <$> p) s = .ok (f a) s' := by
  show (p >>= fun a => pure (f a)) s = _
  rw [bind_ok h]
  rfl

/-- What is read without an error needs no recovery. -/
theorem recovering_ok {p : Parser α} {s s' : State} {a : α} (h : p s = .ok a s') :
    recovering p s = .ok (some a) s' := by
  unfold recovering
  rw [h]

/-- A mark comes next. -/
def Next (kind : TokenKind) (rest : List Token) : Prop :=
  ∃ token more, rest = token :: more ∧ token.kind = kind

theorem Next.notNext {kind other : TokenKind} {rest : List Token} (h : Next kind rest)
    (hother : kind ≠ other) : NotNext other rest := by
  obtain ⟨token, more, rfl, hkind⟩ := h
  exact notNext_cons (hkind ▸ hother)

theorem Next.stopsWhole {kind : TokenKind} {rest : List Token} (h : Next kind rest)
    (hkind : continues tiers kind = false ∧ kind ≠ .symbol .equal) : StopsWhole rest := by
  obtain ⟨token, more, rfl, rfl⟩ := h
  exact stopsWhole_cons hkind

theorem Next.sees {kind : TokenKind} {rest : List Token} (h : Next kind rest) {s : State}
    (hs : s.rest = rest) : s.sees kind = true := by
  obtain ⟨token, more, rfl, hkind⟩ := h
  rw [sees_cons hs, hkind, beq_self_eq_true]

theorem optionalBefore_takes {mark : Symbol} {n n' : Nat} {ts : List Token} {o : Option Expr}
    (h : ReadsOptional n ts o n')
    (hmark : continues tiers (.symbol mark) = false ∧ (.symbol mark : TokenKind) ≠ .symbol .equal)
    (hfirst : startsExpression ⟨.symbol mark, "", 0⟩ = false) :
    Takes (optionalBefore mark) (Next (.symbol mark)) n ts o n' := by
  intro rest hrest s hs hn
  unfold optionalBefore
  rw [bind_ok (sees_run _ s)]
  cases h with
  | none =>
    rw [hrest.sees hs, if_pos rfl, ← hn, ← List.nil_append rest, ← hs]
    rfl
  | some h =>
    obtain ⟨token, us, rfl, htoken⟩ := reads_head h
    rw [sees_eq_false (by rw [hs]; exact notNext_cons (ne_of_startsExpression htoken hfirst)),
      if_neg Bool.false_ne_true]
    exact map_ok (expression_takes h (hrest.stopsWhole hmark) hs hn)

/-- An expression and the mark behind it. -/
theorem expression_mark_takes {β : Type} {mark : Symbol} {place : MarkPlace} {f : Expr → Parser β}
    {n n' : Nat} {ts : List Token} {e : Expr} (h : ReadsExpr .whole n ts e n') {token : Token}
    (hkind : token.kind = .symbol mark)
    (hmark : continues tiers (.symbol mark) = false ∧ (.symbol mark : TokenKind) ≠ .symbol .equal)
    {rest : List Token} {s : State} (hs : s.rest = ts ++ token :: rest) (hn : s.nextId = n) :
    (do
      let e ← expression
      let _ ← expectMark mark place
      f e) s = f e { s with rest := rest, nextId := n' } := by
  have stop : StopsWhole (token :: rest) := stopsWhole_cons (hkind ▸ hmark)
  rw [bind_ok (expression_takes h stop hs hn), bind_ok (expectMark_take place rfl hkind)]

/-- The condition in front of a branch or body. -/
theorem condition_takes {β : Type} {place place' : MarkPlace} {f : Expr → Parser β}
    {opening closing : Token} {n n' : Nat} {ts : List Token} {e : Expr}
    (hopening : opening.kind = .symbol .leftParen) (h : ReadsExpr .whole n ts e n')
    (hclosing : closing.kind = .symbol .rightParen) {rest : List Token} {s : State}
    (hs : s.rest = opening :: (ts ++ closing :: rest)) (hn : s.nextId = n) :
    (do
      let _ ← expectMark .leftParen place
      let e ← expression
      let _ ← expectMark .rightParen place'
      f e) s = f e { s with rest := rest, nextId := n' } := by
  rw [bind_ok (expectMark_take _ hs hopening)]
  exact expression_mark_takes h hclosing (by decide) rfl hn

private theorem separated_of_readsNames {n : Nat} {ts names : List Token} :
    ReadsNames ts names →
      Separated (fun n ts (name : Token) n' => ts = [name] ∧ name.kind = .identifier ∧ n' = n)
        n ts names n
  | .last h => .last ⟨rfl, h, rfl⟩
  | .more h hcomma hmore => .more ⟨rfl, h, rfl⟩ hcomma (separated_of_readsNames hmore)

theorem parameters_takes {n : Nat} {ts names : List Token} (h : ReadsParameters ts names) :
    Takes (listed .tooManyParameters (expect .identifier .parameterName))
      (Next (.symbol .rightParen)) n ts names n := by
  rintro rest hrest s hs hn
  unfold listed
  rw [bind_ok (sees_run _ s)]
  cases h with
  | none =>
    rw [hrest.sees hs, if_pos rfl, ← hn, ← List.nil_append rest, ← hs]
    rfl
  | some hnames hlength =>
    have first : ∃ name us, ts = name :: us ∧ name.kind = .identifier := by
      cases hnames with
      | last h => exact ⟨_, _, rfl, h⟩
      | more h => exact ⟨_, _, rfl, h⟩
    obtain ⟨name, us, rfl, hname⟩ := first
    rw [sees_eq_false (by rw [hs]; exact notNext_cons (by rw [hname]; decide)),
      if_neg Bool.false_ne_true]
    refine commaSeparated_takes .tooManyParameters (fun _ => True) (name :: us).length
      (fun _ => trivial) ?_ (separated_of_readsNames hnames) (Nat.le_refl _) hlength
      ⟨trivial, hrest.notNext (by decide)⟩ hs hn
    rintro n ts a n' ⟨rfl, hkind, rfl⟩ - rest - s hs rfl
    exact expect_take _ hs hkind

theorem varDeclaration_takes {n n' : Nat} {ts : List Token} {t : Stmt}
    (h : ReadsVariable n ts t n') : Takes varDeclaration (fun _ => True) n ts t n' := by
  intro rest _ s hs hn
  unfold varDeclaration
  cases h with
  | bare hname hsemicolon =>
    rw [bind_ok (expect_take _ hs hname),
      bind_ok (accept_leave (notNext_cons (by rw [hsemicolon]; decide))),
      if_neg Bool.false_ne_true, ← hn, pure_bind]
    exact bind_ok (expectMark_take .afterVariable rfl hsemicolon)
  | initialized hname hequal hreads hsemicolon =>
    rename_i ts e semicolon
    simp only [List.cons_append, List.append_assoc, List.nil_append] at hs
    have stop : StopsWhole (semicolon :: rest) := stopsWhole_cons (by rw [hsemicolon]; decide)
    have run := expression_takes hreads stop
      (s := { s with rest := ts ++ semicolon :: rest }) rfl hn
    rw [bind_ok (expect_take _ hs hname), bind_ok (accept_take rfl hequal), if_pos rfl,
      bind_ok (map_ok run)]
    exact bind_ok (expectMark_take .afterVariable rfl hsemicolon)

theorem forInitializer_takes {n n' : Nat} {ts : List Token} {o : Option Stmt}
    (h : ReadsInitializer n ts o n') : Takes forInitializer (fun _ => True) n ts o n' := by
  intro rest _ s hs hn
  unfold forInitializer
  cases h with
  | none hsemicolon =>
    rw [bind_ok (accept_take hs hsemicolon), if_pos rfl, ← hn]
    rfl
  | varDecl hkeyword hvariable =>
    rw [bind_ok (accept_leave (by rw [hs]; exact notNext_cons (by rw [hkeyword]; decide))),
      if_neg Bool.false_ne_true, bind_ok (accept_take hs hkeyword), if_pos rfl]
    exact map_ok (varDeclaration_takes hvariable trivial rfl hn)
  | expression hreads hsemicolon =>
    obtain ⟨token, us, rfl, htoken⟩ := reads_head hreads
    have next : ∀ kind, startsExpression ⟨kind, "", 0⟩ = false → NotNext kind s.rest :=
      fun kind hkind => by rw [hs]; exact notNext_cons (ne_of_startsExpression htoken hkind)
    rw [bind_ok (accept_leave (next _ (by decide))), if_neg Bool.false_ne_true,
      bind_ok (accept_leave (next _ (by decide))), if_neg Bool.false_ne_true]
    exact map_ok (expression_mark_takes hreads hsemicolon (by decide) (by rw [hs]; simp) hn)

/-! ## Statements and declarations are taken -/

/-- The parser takes all statements with less than `bound` tokens, if no `else` follows an open one. -/
def TakesStatements (st : Parser Stmt) (bound : Nat) : Prop :=
  ∀ {isOpen n ts t n'}, ReadsStatement isOpen n ts t n' → ts.length < bound →
    Takes st (fun rest => isOpen = true → NotNext (.keyword .elseKw) rest) n ts t n'

/-- The parser takes all declarations with less than `bound` tokens, if no `else` follows an open
one. -/
def TakesDeclarations (d : Parser (Option Stmt)) (bound : Nat) : Prop :=
  ∀ {isOpen n ts t n'}, ReadsDeclaration isOpen n ts t n' → ts.length < bound →
    Takes d (fun rest => isOpen = true → NotNext (.keyword .elseKw) rest) n ts (some t) n'

section
variable {st : Parser Stmt} {d : Parser (Option Stmt)} {bound : Nat}
  (hst : TakesStatements st bound) (hd : TakesDeclarations d bound)

include hd

/-- A loop that reads a declaration wherever one starts takes all of them. -/
theorem declarations_collects (step : Nat → Parser (Option (Option Stmt))) (rest : List Token)
    (hstep : ∀ {i s token more}, s.rest = token :: more → token.kind ≠ .symbol .rightBrace →
      step i s = (some <$> d) s)
    (hstop : ∀ {i} {s : State}, s.rest = rest → step i s = .ok none s)
    (hrest : NotNext (.keyword .elseKw) rest) {n n' : Nat} {ts : List Token} {body : List Stmt} :
    ReadsDeclarations n ts body n' → ts.length < bound → ∀ {i} {s : State}, s.rest = ts ++ rest →
      s.nextId = n → Collects step i s (body.map some) { s with rest := rest, nextId := n' }
  | .nil, _, i, s, hs, hn => by
    subst hn hs
    exact .stop (hstop rfl)
  | .cons hfirst hmore, hts, i, s, hs, hn => by
    rename_i us _
    obtain ⟨token, vs, rfl, -, hbrace⟩ := declaration_head hfirst
    rw [List.length_append] at hts
    have follow : NotNext (.keyword .elseKw) (us ++ rest) := by
      cases hmore with
      | nil => exact hrest
      | cons hsecond _ =>
        obtain ⟨other, ws, rfl, helse, -⟩ := declaration_head hsecond
        exact notNext_cons helse
    have run := hd hfirst (by omega) (fun _ => follow) (hs.trans (List.append_assoc ..)) hn
    refine .item ((hstep hs hbrace).trans (map_ok run)) ?_
      (declarations_collects step rest hstep hstop hrest hmore (by omega) rfl rfl)
    simp only [hs, List.length_append, List.length_cons]
    omega

theorem block_takes {n n' : Nat} {ts : List Token} {body : List Stmt} {closing : Token}
    (h : ReadsDeclarations n ts body n') (hts : ts.length < bound)
    (hclosing : closing.kind = .symbol .rightBrace) :
    Takes (block d) (fun _ => True) n (ts ++ [closing]) body n' := by
  intro rest _ s hs hn
  have inside := collect_of_collects (declarations_collects hd
    (fun _ => insideStep d) (closing :: rest) (fun hs hbrace => insideStep_take d hs hbrace)
    (fun hs => insideStep_stop d hs hclosing) (notNext_cons (by rw [hclosing]; decide)) h hts
    (show s.rest = ts ++ closing :: rest by rw [hs]; simp) hn)
  unfold block
  rw [declarationsInside_eq, bind_assoc, bind_ok inside, pure_bind,
    bind_ok (expectMark_take .afterBlock rfl hclosing)]
  simp only [List.filterMap_map, Function.comp_def, id, List.filterMap_some]
  rfl

theorem routine_takes {kind : Routine} {n n' : Nat} {ts : List Token} {f : FunctionDecl}
    (h : ReadsRoutine n ts f n') (hts : ts.length ≤ bound) :
    Takes (routine kind d) (fun _ => True) n ts f n' := by
  intro rest _ s hs hn
  cases h with
  | intro hname hopening hparams hclosing hleftBrace hbody hrightBrace =>
    rename_i name opening ts params closing leftBrace us body rightBrace
    simp only [List.length_cons, List.length_append, List.length_nil] at hts
    simp only [List.cons_append, List.append_assoc, List.nil_append] at hs
    have params_run := parameters_takes (n := n) hparams
      ⟨closing, leftBrace :: (us ++ rightBrace :: rest), rfl, hclosing⟩
      (s := { s with rest := ts ++ closing :: leftBrace :: (us ++ rightBrace :: rest) }) rfl hn
    have body_run := block_takes hd hbody (by omega) hrightBrace trivial
      (s := { s with rest := us ++ rightBrace :: rest, nextId := n })
      (List.append_cons us rightBrace rest) rfl
    unfold routine
    rw [bind_ok (expect_take _ hs hname), bind_ok (expectMark_take _ rfl hopening),
      bind_ok params_run, bind_ok (expectMark_take _ rfl hclosing),
      bind_ok (expectMark_take _ rfl hleftBrace), bind_ok body_run]
    rfl

omit hd in
theorem routine_head {n n' : Nat} {ts : List Token} {f : FunctionDecl}
    (h : ReadsRoutine n ts f n') : ∃ token us, ts = token :: us ∧ token.kind = .identifier := by
  cases h with
  | intro h => exact ⟨_, _, rfl, h⟩

theorem methodsInside_collects {closing : Token} {rest : List Token}
    (hclosing : closing.kind = .symbol .rightBrace) {n n' : Nat} {ts : List Token}
    {methods : List FunctionDecl} :
    ReadsRoutines n ts methods n' → ts.length ≤ bound → ∀ {i} {s : State},
      s.rest = ts ++ closing :: rest → s.nextId = n →
      Collects (fun _ => insideStep (routine .method d)) i s methods
        { s with rest := closing :: rest, nextId := n' }
  | .nil, _, i, s, hs, hn => by
    subst hn
    rw [List.nil_append] at hs
    exact hs ▸ .stop (insideStep_stop _ hs hclosing)
  | .cons hfirst hmore, hts, i, s, hs, hn => by
    rename_i us _
    obtain ⟨token, vs, rfl, hname⟩ := routine_head hfirst
    rw [List.length_append] at hts
    have run : routine .method d s = _ :=
      routine_takes hd hfirst (by omega) trivial (hs.trans (List.append_assoc ..)) hn
    refine .item ?_ ?_ (methodsInside_collects hclosing hmore (by omega)
      (s := { s with rest := us ++ closing :: rest, nextId := _ }) rfl rfl)
    · exact (insideStep_take _ hs (by rw [hname]; decide)).trans (map_ok run)
    · simp only [hs, List.length_append, List.length_cons]
      omega

theorem classDeclaration_takes {name opening closing : Token} {n n' : Nat}
    {ts : List Token} {methods : List FunctionDecl} (hname : name.kind = .identifier)
    (hopening : opening.kind = .symbol .leftBrace) (h : ReadsRoutines n ts methods n')
    (hclosing : closing.kind = .symbol .rightBrace) (hts : ts.length ≤ bound) :
    Takes (classDeclaration d) (fun _ => True) n (name :: opening :: ts ++ [closing])
      (.classDecl name methods) n' := by
  intro rest _ s hs hn
  simp only [List.cons_append, List.append_assoc, List.nil_append] at hs
  have run : methodsInside d { s with rest := ts ++ closing :: rest } = _ :=
    collect_of_collects (methodsInside_collects hd hclosing h hts rfl hn)
  rw [classDeclaration_eq, bind_ok (expect_take _ hs hname),
    bind_ok (expectMark_take _ rfl hopening), bind_ok run,
    bind_ok (expectMark_take _ rfl hclosing)]
  rfl

include hst

omit hd in
theorem ifThen_takes {opening closing : Token} {isOpen : Bool} {n n₁ n₂ : Nat}
    {ts us : List Token} {condition : Expr} {thenBranch : Stmt}
    (hopening : opening.kind = .symbol .leftParen) (hcondition : ReadsExpr .whole n ts condition n₁)
    (hclosing : closing.kind = .symbol .rightParen)
    (hthen : ReadsStatement isOpen n₁ us thenBranch n₂) (hus : us.length < bound) :
    Takes (ifStatement st) (NotNext (.keyword .elseKw)) n (opening :: ts ++ closing :: us)
      (.ifThen condition thenBranch) n₂ := by
  intro rest hrest s hs hn
  simp only [List.cons_append, List.append_assoc] at hs
  have run := hst hthen hus (fun _ => hrest)
    (s := { s with rest := us ++ rest, nextId := n₁ }) rfl rfl
  unfold ifStatement
  rw [condition_takes hopening hcondition hclosing hs hn, bind_ok run,
    bind_ok (accept_leave hrest)]
  rfl

omit hd in
theorem ifElse_takes {opening closing keyword : Token} {isOpen : Bool} {n n₁ n₂ n₃ : Nat}
    {ts us vs : List Token} {condition : Expr} {thenBranch elseBranch : Stmt}
    (hopening : opening.kind = .symbol .leftParen) (hcondition : ReadsExpr .whole n ts condition n₁)
    (hclosing : closing.kind = .symbol .rightParen)
    (hthen : ReadsStatement false n₁ us thenBranch n₂) (hus : us.length < bound)
    (hkeyword : keyword.kind = .keyword .elseKw)
    (helse : ReadsStatement isOpen n₂ vs elseBranch n₃) (hvs : vs.length < bound) :
    Takes (ifStatement st) (fun rest => isOpen = true → NotNext (.keyword .elseKw) rest) n
      (opening :: ts ++ closing :: us ++ keyword :: vs)
      (.ifElse condition thenBranch elseBranch) n₃ := by
  intro rest hrest s hs hn
  simp only [List.cons_append, List.append_assoc] at hs
  have then_run := hst hthen hus nofun
    (s := { s with rest := us ++ keyword :: (vs ++ rest), nextId := n₁ }) rfl rfl
  have else_run := hst helse hvs hrest (s := { s with rest := vs ++ rest, nextId := n₂ }) rfl rfl
  unfold ifStatement
  rw [condition_takes hopening hcondition hclosing hs hn, bind_ok then_run,
    bind_ok (accept_take rfl hkeyword), if_pos rfl, bind_ok else_run]
  rfl

omit hd in
theorem whileStatement_takes {opening closing : Token} {isOpen : Bool} {n n₁ n₂ : Nat}
    {ts us : List Token} {condition : Expr} {body : Stmt}
    (hopening : opening.kind = .symbol .leftParen) (hcondition : ReadsExpr .whole n ts condition n₁)
    (hclosing : closing.kind = .symbol .rightParen)
    (hbody : ReadsStatement isOpen n₁ us body n₂) (hus : us.length < bound) :
    Takes (whileStatement st) (fun rest => isOpen = true → NotNext (.keyword .elseKw) rest) n
      (opening :: ts ++ closing :: us) (.whileLoop condition body) n₂ := by
  intro rest hrest s hs hn
  simp only [List.cons_append, List.append_assoc] at hs
  have run := hst hbody hus hrest (s := { s with rest := us ++ rest, nextId := n₁ }) rfl rfl
  unfold whileStatement
  rw [condition_takes hopening hcondition hclosing hs hn, bind_ok run]
  rfl

omit hd in
theorem forStatement_takes {opening semicolon closing : Token} {isOpen : Bool}
    {n n₁ n₂ n₃ n₄ : Nat} {ts us vs ws : List Token} {first : Option Stmt}
    {condition step : Option Expr} {body : Stmt}
    (hopening : opening.kind = .symbol .leftParen) (hfirst : ReadsInitializer n ts first n₁)
    (hcondition : ReadsOptional n₁ us condition n₂)
    (hsemicolon : semicolon.kind = .symbol .semicolon) (hstep : ReadsOptional n₂ vs step n₃)
    (hclosing : closing.kind = .symbol .rightParen)
    (hbody : ReadsStatement isOpen n₃ ws body n₄) (hws : ws.length < bound) :
    Takes (forStatement st) (fun rest => isOpen = true → NotNext (.keyword .elseKw) rest) n
      (opening :: ts ++ us ++ semicolon :: vs ++ closing :: ws)
      (.forLoop first condition step body) n₄ := by
  intro rest hrest s hs hn
  simp only [List.cons_append, List.append_assoc] at hs
  have first_run := forInitializer_takes hfirst trivial
    (s := { s with rest := ts ++ (us ++ semicolon :: (vs ++ closing :: (ws ++ rest))) }) rfl hn
  have condition_run := optionalBefore_takes hcondition (by decide) (by decide)
    ⟨semicolon, vs ++ closing :: (ws ++ rest), rfl, hsemicolon⟩
    (s := { s with rest := us ++ semicolon :: (vs ++ closing :: (ws ++ rest)), nextId := n₁ })
    rfl rfl
  have step_run := optionalBefore_takes hstep (by decide) (by decide)
    ⟨closing, ws ++ rest, rfl, hclosing⟩
    (s := { s with rest := vs ++ closing :: (ws ++ rest), nextId := n₂ }) rfl rfl
  have body_run := hst hbody hws hrest (s := { s with rest := ws ++ rest, nextId := n₃ }) rfl rfl
  rw [forStatement_eq, bind_ok (expectMark_take _ hs hopening), bind_ok first_run,
    bind_ok condition_run, bind_ok (expectMark_take _ rfl hsemicolon), bind_ok step_run,
    bind_ok (expectMark_take _ rfl hclosing), bind_ok body_run]
  rfl

theorem statementRule_takes : TakesStatements (statementRule st d) (bound + 1) := by
  intro isOpen n ts t n' h hts rest hrest s hs hn
  cases h with
  | expression hreads hsemicolon =>
    obtain ⟨token, us, rfl, htoken⟩ := reads_head hreads
    simp only [List.cons_append, List.append_assoc, List.nil_append] at hs
    rw [statementRule_expression st d hs (not_mem_of_startsExpression htoken (by decide))]
    exact expression_mark_takes hreads hsemicolon (by decide) (by simp [hs]) hn
  | print hkeyword hreads hsemicolon =>
    simp only [List.cons_append, List.append_assoc, List.nil_append] at hs
    rw [statementRule_run st d hs, hkeyword]
    exact expression_mark_takes hreads hsemicolon (by decide) rfl hn
  | returns hkeyword hreads hsemicolon =>
    rename_i keyword ts value semicolon
    simp only [List.cons_append, List.append_assoc, List.nil_append] at hs
    have run := optionalBefore_takes hreads (by decide) (by decide)
      ⟨semicolon, rest, rfl, hsemicolon⟩ (s := { s with rest := ts ++ semicolon :: rest }) rfl hn
    rw [statementRule_run st d hs, hkeyword]
    dsimp only
    rw [returnStatement_eq, bind_ok run, bind_ok (expectMark_take _ rfl hsemicolon)]
    rfl
  | block hopening hbody hclosing =>
    rename_i opening ts body closing
    rw [List.cons_append, List.cons_append] at hs
    simp only [List.length_cons, List.length_append, List.length_nil] at hts
    rw [statementRule_run st d hs, hopening]
    exact map_ok (block_takes hd hbody (by omega) hclosing trivial rfl hn)
  | ifThen hkeyword hopening hcondition hclosing hthen =>
    simp only [List.length_cons, List.length_append] at hts
    rw [List.cons_append, List.cons_append] at hs
    rw [statementRule_run st d hs, hkeyword]
    exact ifThen_takes hst hopening hcondition hclosing hthen (by omega) (hrest rfl) rfl hn
  | ifElse hkeyword hopening hcondition hclosing hthen helseKeyword helse =>
    simp only [List.length_cons, List.length_append] at hts
    rw [List.cons_append, List.cons_append] at hs
    rw [statementRule_run st d hs, hkeyword]
    exact ifElse_takes hst hopening hcondition hclosing hthen (by omega) helseKeyword helse
      (by omega) hrest rfl hn
  | whileLoop hkeyword hopening hcondition hclosing hbody =>
    simp only [List.length_cons, List.length_append] at hts
    rw [List.cons_append, List.cons_append] at hs
    rw [statementRule_run st d hs, hkeyword]
    exact whileStatement_takes hst hopening hcondition hclosing hbody (by omega) hrest rfl hn
  | forLoop hkeyword hopening hfirst hcondition hsemicolon hstep hclosing hbody =>
    simp only [List.length_cons, List.length_append] at hts
    rw [List.cons_append, List.cons_append] at hs
    rw [statementRule_run st d hs, hkeyword]
    exact forStatement_takes hst hopening hfirst hcondition hsemicolon hstep hclosing hbody
      (by omega) hrest rfl hn

omit hst in
theorem declarationRule_takes {st' : Parser Stmt} (hst' : TakesStatements st' (bound + 1)) :
    TakesDeclarations (declarationRule st' d) (bound + 1) := by
  intro isOpen n ts t n' h hts rest hrest s hs hn
  refine recovering_ok (p := declarationBody st' d) ?_
  cases h with
  | statement h =>
    obtain ⟨token, us, rfl, htoken⟩ := statement_head h
    rw [List.cons_append] at hs
    rw [declarationBody_statement st' d hs fun hmem => htoken (declarators_subset hmem)]
    exact hst' h hts hrest hs hn
  | varDecl hkeyword hvariable =>
    rw [List.cons_append] at hs
    rw [declarationBody_run st' d hs, hkeyword]
    exact varDeclaration_takes hvariable trivial rfl hn
  | funDecl hkeyword hroutine =>
    rw [List.cons_append] at hs
    simp only [List.length_cons] at hts
    rw [declarationBody_run st' d hs, hkeyword]
    exact map_ok (routine_takes hd hroutine (by omega) trivial rfl hn)
  | classDecl hkeyword hname hopening hmethods hclosing =>
    rw [List.cons_append, List.cons_append] at hs
    simp only [List.length_cons, List.length_append, List.length_nil] at hts
    rw [declarationBody_run st' d hs, hkeyword]
    exact classDeclaration_takes hd hname hopening hmethods hclosing (by omega) trivial rfl hn

end

theorem upTo_takes (depth : Nat) :
    TakesStatements (statementUpTo depth) depth ∧
      TakesDeclarations (declarationUpTo depth) depth := by
  induction depth with
  | zero =>
    exact ⟨fun _ hts => absurd hts (Nat.not_lt_zero _), fun _ hts => absurd hts (Nat.not_lt_zero _)⟩
  | succ depth ih =>
    have hst : TakesStatements (statementUpTo (depth + 1)) (depth + 1) :=
      statementRule_takes ih.1 ih.2
    exact ⟨hst, declarationRule_takes ih.2 hst⟩

/-- Tokens that spell a declaration are taken, if no `else` follows an open one. -/
theorem declaration_takes {bound : Nat} : TakesDeclarations declaration bound := by
  intro isOpen n ts t n' h _ rest hrest s hs hn
  unfold declaration
  rw [bind_ok (get_run s)]
  refine (upTo_takes _).2 h ?_ hrest hs hn
  rw [hs, List.length_append]
  omega

/-! ## Whole lists of tokens -/

/-- The declarations of a program; the loop does not end before the source does. -/
private theorem program_loop {s s' : State} {read : List (Option Stmt)} (ends : s.Ends)
    (h : Gives (collect fun _ => do
      if ← atEnd then return none else return some (← declaration)) s read s') :
    (∃ ts, s.rest = ts ++ s'.rest ∧ read.length ≤ ts.length ∧
      ReadsDeclarations s.nextId ts (read.filterMap id) s'.nextId) ∧
    (read.length = s.rest.length ∨ s'.rest = []) := by
  have declined : ∀ {s s'}, Gives (do
      if ← atEnd then return none else return some (← declaration) : Parser (Option (Option Stmt)))
      s none s' → s' = s ∧ s.rest = [] := by
    intro s s' hstep
    obtain ⟨ended, s₁, hend, h₁⟩ := bind_gives hstep
    obtain ⟨rfl, rfl⟩ := atEnd_gives hend
    split at h₁
    · next hempty => exact ⟨(pure_gives h₁).2, List.isEmpty_iff.mp hempty⟩
    · obtain ⟨_, _, _, hpure⟩ := bind_gives h₁
      cases (pure_gives hpure).1
  have loop := collect_gives
    (fun _ s os s' => s.Ends → ∃ ts, s.rest = ts ++ s'.rest ∧ os.length ≤ ts.length ∧
      ReadsDeclarations s.nextId ts (os.filterMap id) s'.nextId)
    (fun hstep _ => by
      obtain ⟨rfl, -⟩ := declined hstep
      exact ⟨[], rfl, Nat.le_refl _, .nil⟩)
    (fun _ s _ => ⟨[], rfl, Nat.le_refl _, .nil⟩)
    (fun {_ s o s₁ os s₂} hstep ih ends => by
      have ends₁ := hstep.ends ends
      obtain ⟨ended, s₃, hend, h₁⟩ := bind_gives hstep
      obtain ⟨-, rfl⟩ := atEnd_gives hend
      split at h₁
      · cases (pure_gives h₁).1
      · obtain ⟨o', s₄, hdeclaration, hpure⟩ := bind_gives h₁
        obtain ⟨ho, rfl⟩ := pure_gives hpure
        cases ho
        obtain ⟨t, isOpen, ts, rfl, hts, hreads⟩ := declaration_gives ends hdeclaration
        obtain ⟨us, hus, hlength, hmore⟩ := ih ends₁
        obtain ⟨token, vs, rfl, -⟩ := declaration_head hreads
        refine ⟨token :: vs ++ us, by rw [hts, hus, List.append_assoc], ?_, .cons hreads hmore⟩
        simp only [List.length_cons, List.length_append]
        omega)
    h
  refine ⟨loop.1 ends, loop.2.imp_right ?_⟩
  rintro ⟨_, s₁, hstop⟩
  obtain ⟨rfl, hempty⟩ := declined hstop
  exact hempty

/-- A program is read up to the end of its source. -/
theorem program_gives {s s' : State} {body : List Stmt} (ends : s.Ends)
    (h : Gives program s body s') :
    s'.rest = [] ∧ ReadsDeclarations s.nextId s.rest body s'.nextId := by
  unfold program at h
  obtain ⟨read, s₁, hread, hpure⟩ := bind_gives h
  obtain ⟨rfl, rfl⟩ := pure_gives hpure
  obtain ⟨⟨ts, hts, hlength, hreads⟩, stopped⟩ := program_loop ends hread
  have ended : s'.rest = [] := by
    obtain hfull | hempty := stopped
    · -- There was a declaration for each token, so no token is left.
      rw [hfull, hts, List.length_append] at hlength
      exact List.length_eq_zero_iff.mp (by omega)
    · exact hempty
  rw [ended, List.append_nil] at hts
  exact ⟨ended, hts ▸ hreads⟩

theorem program_takes {n n' : Nat} {ts : List Token} {body : List Stmt}
    (h : ReadsDeclarations n ts body n') : Takes program (· = []) n ts body n' := by
  rintro _ rfl s hs hn
  have run := collect_of_collects (declarations_collects declaration_takes
    (fun _ => declarationStep) [] (fun hs _ => declarationStep_take (hs ▸ List.cons_ne_nil _ _))
    (fun hs => declarationStep_end hs) nofun h (Nat.lt_succ_self _) hs hn)
  rw [program_eq, bind_ok run]
  simp only [List.filterMap_map, Function.comp_def, id, List.filterMap_some]
  rfl

theorem loneExpression_gives {s s' : State} {e : Expr} (ends : s.Ends)
    (h : Gives loneExpression s e s') :
    s'.rest = [] ∧ ReadsExpr .whole s.nextId s.rest e s'.nextId := by
  unfold loneExpression at h
  obtain ⟨tree, s₁, htree, h₁⟩ := bind_gives h
  obtain ⟨ended, s₂, hend, h₂⟩ := bind_gives h₁
  obtain ⟨rfl, rfl⟩ := atEnd_gives hend
  obtain ⟨ts, hts, hreads⟩ := expression_gives ends htree
  split at h₂
  · next hempty =>
    obtain ⟨rfl, rfl⟩ := pure_gives h₂
    have ended := List.isEmpty_iff.mp hempty
    rw [ended, List.append_nil] at hts
    exact ⟨ended, hts ▸ hreads⟩
  · exact (fail_gives h₂).elim

theorem loneExpression_takes {n n' : Nat} {ts : List Token} {e : Expr}
    (h : ReadsExpr .whole n ts e n') : Takes loneExpression (· = []) n ts e n' := by
  rintro _ rfl s hs hn
  unfold loneExpression
  have stop : StopsWhole [] := ⟨by rintro _ ⟨⟩, by rintro _ ⟨⟩⟩
  rw [bind_ok (expression_takes h stop hs hn)]
  rfl

theorem State.start_ends (n : Nat) (tokens : List Token) : (State.start n tokens).Ends := by
  unfold State.Ends State.start
  dsimp only
  cases h : tokens.find? (·.kind == .eof) with
  | none => rfl
  | some token =>
    have hkind := List.find?_some h
    exact eq_of_beq hkind

/-- Running a parser that reads what the relation spells, and nothing behind it, gives what the tokens
before the end spell. -/
theorem run_eq_ok {R : Nat → List Token → α → Nat → Prop} {p : Parser α} [Forward p]
    (hgives : ∀ {s : State} {a s'}, s.Ends → Gives p s a s' → R s.nextId s.rest a s'.nextId)
    (htakes : ∀ {n ts a n'}, R n ts a n' → Takes p (· = []) n ts a n') {n n' : Nat}
    {tokens : List Token} {a : α} :
    p.run n tokens = ⟨.ok a, n'⟩ ↔ R n (tokens.takeWhile (·.kind != .eof)) a n' := by
  constructor
  · intro h
    unfold run at h
    split at h
    · next a' s' hp =>
      split at h
      · next quiet =>
        cases h
        exact hgives (State.start_ends n tokens) ⟨hp, List.isEmpty_iff.mp quiet⟩
      · cases h
    · cases h
  · intro h
    unfold run
    rw [htakes h rfl (s := State.start n tokens) (List.append_nil _).symm rfl]
    rfl

end Lox.Parser

namespace Lox

open Lox.Parser

/-- A list of tokens is parsed as the program that it spells, and only as that. -/
theorem parseProgram_eq_ok {n n' : Nat} {tokens : List Token} {body : List Stmt} :
    parseProgram n tokens = ⟨.ok body, n'⟩ ↔
      ReadsDeclarations n (tokens.takeWhile (·.kind != .eof)) body n' :=
  run_eq_ok (fun ends h => (program_gives ends h).2) program_takes

/-- A list of tokens is parsed as the expression that it spells, and only as that. -/
theorem parseExpression_eq_ok {n n' : Nat} {tokens : List Token} {e : Expr} :
    parseExpression n tokens = ⟨.ok e, n'⟩ ↔
      ReadsExpr .whole n (tokens.takeWhile (·.kind != .eof)) e n' :=
  run_eq_ok (fun ends h => (loneExpression_gives ends h).2) loneExpression_takes

end Lox
