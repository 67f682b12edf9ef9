import Lox.Proofs.Parser.Expression

/-!
# What the parser of statements gives is spelled by what it takes

What the parser gives without an error is spelled by the tokens that it took, and an open statement
is not followed by `else`. Recovery does not show: a declaration in error notes the error.
-/

namespace Lox.Parser

variable {α : Type}

/-! ## The rules by the next token -/

/-- An expression that may be missing before a mark. -/
def optionalBefore (mark : Symbol) : Parser (Option Expr) := do
  if ← sees (.symbol mark) then pure none else some <$> expression

instance forward_optionalBefore (mark : Symbol) : Forward (optionalBefore mark) := by
  unfold optionalBefore
  infer_instance

/-- A choice in front of the same continuation is a choice before it. -/
private theorem ite_bind {β : Type} (c : Prop) [Decidable c] (x y : Parser α) (f : α → Parser β) :
    (if c then x >>= f else y >>= f) = (if c then x else y) >>= f := by
  split <;> rfl

theorem returnStatement_eq (keyword : Token) :
    returnStatement keyword = (do
      let value ← optionalBefore .semicolon
      let _ ← expectMark .semicolon .afterReturnValue
      return .returns keyword value) := by
  unfold returnStatement optionalBefore
  simp only [ite_bind, bind_assoc]

theorem forStatement_eq (st : Parser Stmt) :
    forStatement st = (do
      let _ ← expectMark .leftParen .afterFor
      let initializer ← forInitializer
      let condition ← optionalBefore .semicolon
      let _ ← expectMark .semicolon .afterLoopCondition
      let increment ← optionalBefore .rightParen
      let _ ← expectMark .rightParen .afterForClauses
      let body ← st
      return .forLoop initializer condition increment body) := by
  unfold forStatement optionalBefore
  simp only [ite_bind, bind_assoc]

/-- The methods of a class, up to its closing brace or the end. -/
def methodsInside (d : Parser (Option Stmt)) : Parser (List FunctionDecl) :=
  collect fun _ => do
    if (← sees (.symbol .rightBrace)) || (← atEnd) then return none
    else return some (← routine .method d)

theorem methodsInside_eq (d : Parser (Option Stmt)) :
    methodsInside d = collect fun _ => insideStep (routine .method d) :=
  rfl

theorem insideStep_take (p : Parser α) {s : State} {token : Token} {rest : List Token}
    (hs : s.rest = token :: rest) (hkind : token.kind ≠ .symbol .rightBrace) :
    insideStep p s = (some <$> p) s := by
  rw [insideStep_run, sees_eq_false (by rw [hs]; exact notNext_cons hkind), hs]
  rfl

theorem insideStep_stop (p : Parser α) {s : State} {closing : Token} {rest : List Token}
    (hs : s.rest = closing :: rest) (hclosing : closing.kind = .symbol .rightBrace) :
    insideStep p s = .ok none s := by
  rw [insideStep_run, sees_cons hs, hclosing]
  rfl

/-- A round of the loop over the declarations of a program. -/
def declarationStep : Parser (Option (Option Stmt)) := do
  if ← atEnd then return none else return some (← declaration)

instance forward_declarationStep : Forward declarationStep := by
  unfold declarationStep
  infer_instance

theorem program_eq : program = (do
    let read ← collect fun _ => declarationStep
    return read.filterMap id) :=
  rfl

theorem declarationStep_end {s : State} (hs : s.rest = []) : declarationStep s = .ok none s := by
  unfold declarationStep
  rw [bind_ok (atEnd_run s), hs]
  rfl

theorem declarationStep_take {s : State} (hs : s.rest ≠ []) :
    declarationStep s = (some <$> declaration) s := by
  unfold declarationStep
  rw [bind_ok (atEnd_run s), List.isEmpty_eq_false_iff.mpr hs]
  rfl

instance forward_methodsInside (d : Parser (Option Stmt)) [Forward d] :
    Forward (methodsInside d) := by
  unfold methodsInside
  infer_instance

theorem classDeclaration_eq (d : Parser (Option Stmt)) :
    classDeclaration d = (do
      let name ← expect .identifier .className
      let _ ← expectMark .leftBrace .beforeClassBody
      let methods ← methodsInside d
      let _ ← expectMark .rightBrace .afterClassBody
      return .classDecl name methods) :=
  rfl

section
variable (st : Parser Stmt) (d : Parser (Option Stmt)) {s : State} {token : Token}
  {rest : List Token}

/-- The keyword or brace in front says which statement follows. -/
theorem statementRule_run (h : s.rest = token :: rest) :
    statementRule st d s =
      match token.kind with
      | .keyword .forKw => forStatement st { s with rest := rest }
      | .keyword .ifKw => ifStatement st { s with rest := rest }
      | .keyword .whileKw => whileStatement st { s with rest := rest }
      | .keyword .returnKw => returnStatement token { s with rest := rest }
      | .symbol .leftBrace => (Stmt.block <$> block d) { s with rest := rest }
      | .keyword .printKw => printStatement { s with rest := rest }
      | _ => expressionStatement s := by
  have skip : ∀ {kind}, token.kind ≠ kind → accept kind s = .ok false s :=
    fun hkind => accept_leave (by rw [h]; exact notNext_cons hkind)
  unfold statementRule
  rw [bind_ok (here_run s), here_cons h]
  by_cases hfor : token.kind = .keyword .forKw
  · rw [bind_ok (accept_take h hfor), if_pos rfl, hfor]
  rw [bind_ok (skip hfor), if_neg Bool.false_ne_true]
  by_cases hif : token.kind = .keyword .ifKw
  · rw [bind_ok (accept_take h hif), if_pos rfl, hif]
  rw [bind_ok (skip hif), if_neg Bool.false_ne_true]
  by_cases hwhile : token.kind = .keyword .whileKw
  · rw [bind_ok (accept_take h hwhile), if_pos rfl, hwhile]
  rw [bind_ok (skip hwhile), if_neg Bool.false_ne_true]
  by_cases hreturn : token.kind = .keyword .returnKw
  · rw [bind_ok (accept_take h hreturn), if_pos rfl, hreturn]
  rw [bind_ok (skip hreturn), if_neg Bool.false_ne_true]
  by_cases hblock : token.kind = .symbol .leftBrace
  · rw [bind_ok (accept_take h hblock), if_pos rfl, hblock]
    rfl
  rw [bind_ok (skip hblock), if_neg Bool.false_ne_true]
  by_cases hprint : token.kind = .keyword .printKw
  · rw [bind_ok (accept_take h hprint), if_pos rfl, hprint]
  rw [bind_ok (skip hprint), if_neg Bool.false_ne_true]
  split <;> first | contradiction | rfl

/-- The keywords and the brace that say which statement follows. -/
def leaders : List TokenKind :=
  [.keyword .forKw, .keyword .ifKw, .keyword .whileKw, .keyword .returnKw, .symbol .leftBrace,
    .keyword .printKw]

/-- Behind any other token in front follows an expression. -/
theorem statementRule_expression (h : s.rest = token :: rest) (hkind : token.kind ∉ leaders) :
    statementRule st d s = expressionStatement s := by
  have run := statementRule_run st d h
  split at run
  case h_7 => exact run
  all_goals next heq => exact absurd (by rw [heq]; decide) hkind

theorem statementRule_end (h : s.rest = []) : statementRule st d s = expressionStatement s := by
  have skip : ∀ {kind}, accept kind s = .ok false s :=
    accept_leave (by rw [h]; rintro _ ⟨⟩)
  unfold statementRule
  rw [bind_ok (here_run s)]
  repeat rw [bind_ok skip, if_neg Bool.false_ne_true]

/-- What a declaration is before recovery, by its keyword. -/
def declarationBody (st : Parser Stmt) (d : Parser (Option Stmt)) : Parser Stmt := do
  if ← accept (.keyword .classKw) then classDeclaration d
  else if ← accept (.keyword .funKw) then return .funDecl (← routine .function d)
  else if ← accept (.keyword .varKw) then varDeclaration
  else st

theorem declarationRule_eq : declarationRule st d = recovering (declarationBody st d) := rfl

instance forward_declarationBody [Forward st] [Forward d] : Forward (declarationBody st d) := by
  unfold declarationBody
  infer_instance

theorem declarationBody_run (h : s.rest = token :: rest) :
    declarationBody st d s =
      match token.kind with
      | .keyword .classKw => classDeclaration d { s with rest := rest }
      | .keyword .funKw => (Stmt.funDecl <$> routine .function d) { s with rest := rest }
      | .keyword .varKw => varDeclaration { s with rest := rest }
      | _ => st s := by
  have skip : ∀ {kind}, token.kind ≠ kind → accept kind s = .ok false s :=
    fun hkind => accept_leave (by rw [h]; exact notNext_cons hkind)
  unfold declarationBody
  by_cases hclass : token.kind = .keyword .classKw
  · rw [bind_ok (accept_take h hclass), if_pos rfl, hclass]
  rw [bind_ok (skip hclass), if_neg Bool.false_ne_true]
  by_cases hfun : token.kind = .keyword .funKw
  · rw [bind_ok (accept_take h hfun), if_pos rfl, hfun]
    rfl
  rw [bind_ok (skip hfun), if_neg Bool.false_ne_true]
  by_cases hvar : token.kind = .keyword .varKw
  · rw [bind_ok (accept_take h hvar), if_pos rfl, hvar]
  rw [bind_ok (skip hvar), if_neg Bool.false_ne_true]
  split <;> first | contradiction | rfl

/-- The keywords that declarations start with. -/
def declarators : List TokenKind := [.keyword .classKw, .keyword .funKw, .keyword .varKw]

theorem declarationBody_statement (h : s.rest = token :: rest) (hkind : token.kind ∉ declarators) :
    declarationBody st d s = st s := by
  have run := declarationBody_run st d h
  split at run
  case h_4 => exact run
  all_goals next heq => exact absurd (by rw [heq]; decide) hkind

theorem declarationBody_end (h : s.rest = []) : declarationBody st d s = st s := by
  have skip : ∀ {kind}, accept kind s = .ok false s :=
    accept_leave (by rw [h]; rintro _ ⟨⟩)
  unfold declarationBody
  repeat rw [bind_ok skip, if_neg Bool.false_ne_true]

end

/-! ## What the parser gives is spelled by what it takes -/

/-- A run without errors is one of the parser that it comes down to. -/
theorem Gives.of_eq {p q : Parser α} {s s₁ s' : State} {a : α} (h : Gives p s a s')
    (heq : p s = q s₁) (herrors : s₁.errors = s.errors) : Gives q s₁ a s' :=
  ⟨heq ▸ h.run, h.quiet.trans herrors.symm⟩

theorem map_gives {β : Type} {f : α → β} {p : Parser α} [Forward p] {s s' : State} {b : β}
    (h : Gives (f <$> p) s b s') : ∃ a, Gives p s a s' ∧ b = f a := by
  have h' : Gives (p >>= fun a => pure (f a)) s b s' := h
  obtain ⟨a, s₁, hp, hpure⟩ := bind_gives h'
  obtain ⟨rfl, rfl⟩ := pure_gives hpure
  exact ⟨a, hp, rfl⟩

theorem recovering_gives {p : Parser α} [Forward p] {s s' : State} {o : Option α}
    (h : Gives (recovering p) s o s') : ∃ a, o = some a ∧ Gives p s a s' := by
  obtain ⟨run, quiet⟩ := h
  unfold recovering at run
  split at run
  · next a s₁ hp =>
    cases run
    exact ⟨a, rfl, hp, quiet⟩
  · next error s₁ hp =>
    cases run
    have longer := (Forward.of_error hp).errors.length_le
    have := congrArg List.length quiet
    simp only [List.length_append, List.length_singleton] at this
    omega

theorem optionalBefore_gives {mark : Symbol} : ReadBy ReadsOptional (optionalBefore mark) := by
  intro s o s' ends h
  unfold optionalBefore at h
  obtain ⟨seen, s₁, hsees, hvalue⟩ := bind_gives h
  obtain ⟨-, rfl⟩ := sees_gives hsees
  split at hvalue
  · obtain ⟨rfl, rfl⟩ := pure_gives hvalue
    exact ⟨[], rfl, .none⟩
  · obtain ⟨e, he, rfl⟩ := map_gives hvalue
    obtain ⟨ts, hts, hreads⟩ := expression_gives ends he
    exact ⟨ts, hts, .some hreads⟩

/-- What a function takes for a parameter. -/
private def IsParameter (n : Nat) (ts : List Token) (name : Token) (n' : Nat) : Prop :=
  ts = [name] ∧ name.kind = .identifier ∧ n' = n

private theorem readsNames_of_separated {n n' : Nat} {ts names : List Token}
    (h : Separated IsParameter n ts names n') : ReadsNames ts names ∧ n' = n := by
  induction h with
  | last h =>
    obtain ⟨rfl, hkind, rfl⟩ := h
    exact ⟨.last hkind, rfl⟩
  | more h hcomma _ ih =>
    obtain ⟨rfl, hkind, rfl⟩ := h
    exact ⟨.more hkind hcomma ih.1, ih.2⟩

theorem parameters_gives {s s' : State} {names : List Token} (ends : s.Ends)
    (h : Gives (listed .tooManyParameters (expect .identifier .parameterName)) s names s') :
    ∃ ts, s.rest = ts ++ s'.rest ∧ ReadsParameters ts names ∧ s'.nextId = s.nextId := by
  have item : ReadBy IsParameter (expect .identifier .parameterName) := by
    intro s name s' _ h
    obtain ⟨hrest, hkind, hs'⟩ := expect_gives h
    exact ⟨[name], hrest, rfl, hkind, by rw [hs']⟩
  obtain ⟨rfl, rfl⟩ | ⟨ts, hts, hsep, hlength⟩ := listed_gives item ends h
  · exact ⟨[], rfl, .none, rfl⟩
  · obtain ⟨hnames, hn⟩ := readsNames_of_separated hsep
    exact ⟨ts, hts, .some hnames hlength, hn⟩

theorem varDeclaration_gives : ReadBy ReadsVariable varDeclaration := by
  intro s t s' ends h
  unfold varDeclaration at h
  obtain ⟨name, s₁, hname, h₁⟩ := bind_gives h
  obtain ⟨hrest₁, hidentifier, hs₁⟩ := expect_gives hname
  obtain ⟨taken, s₂, haccept, h₂⟩ := bind_gives h₁
  have hid₁ : s₁.nextId = s.nextId := by rw [hs₁]
  obtain ⟨rfl, equal, hrest₂, hequal, hs₂⟩ | ⟨rfl, -, rfl⟩ := accept_gives haccept
  · rw [if_pos rfl] at h₂
    obtain ⟨value, s₃, hvalue, h₃⟩ := bind_gives h₂
    obtain ⟨e, he, rfl⟩ := map_gives hvalue
    obtain ⟨semicolon, s₄, hsemicolon, hpure⟩ := bind_gives h₃
    obtain ⟨rfl, rfl⟩ := pure_gives hpure
    obtain ⟨ts, hts, hreads⟩ := expression_gives (haccept.ends (hname.ends ends)) he
    obtain ⟨hrest₄, hmark, hs₄⟩ := expectMark_gives hsemicolon
    have hid₂ : s₂.nextId = s.nextId := by rw [hs₂, hid₁]
    rw [hid₂] at hreads
    refine ⟨name :: equal :: ts ++ [semicolon], ?_, ?_⟩
    · rw [hrest₁, hrest₂, hts, hrest₄]
      simp
    · rw [hs₄]
      exact .initialized hidentifier hequal hreads hmark
  · rw [if_neg Bool.false_ne_true] at h₂
    obtain ⟨value, s₃, hnone, h₃⟩ := bind_gives h₂
    obtain ⟨rfl, rfl⟩ := pure_gives hnone
    obtain ⟨semicolon, s₄, hsemicolon, hpure⟩ := bind_gives h₃
    obtain ⟨rfl, rfl⟩ := pure_gives hpure
    obtain ⟨hrest₄, hmark, hs₄⟩ := expectMark_gives hsemicolon
    refine ⟨[name, semicolon], by rw [hrest₁, hrest₄]; rfl, ?_⟩
    rw [hs₄]
    exact hid₁ ▸ .bare hidentifier hmark

theorem expressionStatement_gives {s s' : State} {t : Stmt} (ends : s.Ends)
    (h : Gives expressionStatement s t s') :
    ∃ e ts semicolon, t = .expression e ∧ s.rest = ts ++ semicolon :: s'.rest ∧
      ReadsExpr .whole s.nextId ts e s'.nextId ∧ semicolon.kind = .symbol .semicolon := by
  unfold expressionStatement at h
  obtain ⟨e, s₁, he, h₁⟩ := bind_gives h
  obtain ⟨semicolon, s₂, hsemicolon, hpure⟩ := bind_gives h₁
  obtain ⟨rfl, rfl⟩ := pure_gives hpure
  obtain ⟨ts, hts, hreads⟩ := expression_gives ends he
  obtain ⟨hrest, hmark, hs₂⟩ := expectMark_gives hsemicolon
  exact ⟨e, ts, semicolon, rfl, by rw [hts, hrest], by rw [hs₂]; exact hreads, hmark⟩

theorem printStatement_gives {s s' : State} {t : Stmt} (ends : s.Ends)
    (h : Gives printStatement s t s') {keyword : Token}
    (hkeyword : keyword.kind = .keyword .printKw) :
    ∃ ts, s.rest = ts ++ s'.rest ∧
      ReadsStatement false s.nextId (keyword :: ts) t s'.nextId := by
  unfold printStatement at h
  obtain ⟨e, s₁, he, h₁⟩ := bind_gives h
  obtain ⟨semicolon, s₂, hsemicolon, hpure⟩ := bind_gives h₁
  obtain ⟨rfl, rfl⟩ := pure_gives hpure
  obtain ⟨ts, hts, hreads⟩ := expression_gives ends he
  obtain ⟨hrest, hmark, hs₂⟩ := expectMark_gives hsemicolon
  refine ⟨ts ++ [semicolon], by rw [hts, hrest]; simp, ?_⟩
  rw [hs₂]
  exact .print hkeyword hreads hmark

theorem returnStatement_gives {s s' : State} {t : Stmt} {keyword : Token} (ends : s.Ends)
    (h : Gives (returnStatement keyword) s t s') (hkeyword : keyword.kind = .keyword .returnKw) :
    ∃ ts, s.rest = ts ++ s'.rest ∧
      ReadsStatement false s.nextId (keyword :: ts) t s'.nextId := by
  rw [returnStatement_eq] at h
  obtain ⟨value, s₁, hvalue, h₁⟩ := bind_gives h
  obtain ⟨semicolon, s₂, hsemicolon, hpure⟩ := bind_gives h₁
  obtain ⟨rfl, rfl⟩ := pure_gives hpure
  obtain ⟨ts, hts, hreads⟩ := optionalBefore_gives ends hvalue
  obtain ⟨hrest, hmark, hs₂⟩ := expectMark_gives hsemicolon
  refine ⟨ts ++ [semicolon], by rw [hts, hrest]; simp, ?_⟩
  rw [hs₂]
  exact .returns hkeyword hreads hmark

/-- The parser gives statements, and nothing that an open one would go on with follows. -/
def GivesStatements (st : Parser Stmt) (bound : Nat) : Prop :=
  ∀ {s : State} {t s'}, s.Ends → s.rest.length < bound → Gives st s t s' →
    ∃ isOpen ts, s.rest = ts ++ s'.rest ∧ ReadsStatement isOpen s.nextId ts t s'.nextId ∧
      (isOpen = true → NotNext (.keyword .elseKw) s'.rest)

/-- The parser gives declarations, and nothing that an open one would go on with follows. -/
def GivesDeclarations (d : Parser (Option Stmt)) (bound : Nat) : Prop :=
  ∀ {s : State} {o s'}, s.Ends → s.rest.length < bound → Gives d s o s' →
    ∃ t isOpen ts, o = some t ∧ s.rest = ts ++ s'.rest ∧
      ReadsDeclaration isOpen s.nextId ts t s'.nextId ∧
      (isOpen = true → NotNext (.keyword .elseKw) s'.rest)

/-- A run leaves no more tokens than there were. -/
theorem Gives.length_le {p : Parser α} [Forward p] {s s' : State} {a : α} (h : Gives p s a s') :
    s'.rest.length ≤ s.rest.length :=
  (Forward.of_ok h.run).rest.length_le

section
variable {st : Parser Stmt} {d : Parser (Option Stmt)} [Forward st] [Forward d] {bound : Nat}
  (hst : GivesStatements st bound) (hd : GivesDeclarations d bound)

include hd in
omit [Forward st] in
theorem declarationsInside_gives {s s' : State} {body : List Stmt} (ends : s.Ends)
    (hbound : s.rest.length < bound) (h : Gives (declarationsInside d) s body s') :
    ∃ ts, s.rest = ts ++ s'.rest ∧ ReadsDeclarations s.nextId ts body s'.nextId := by
  unfold declarationsInside at h
  obtain ⟨read, s₁, hread, hpure⟩ := bind_gives h
  obtain ⟨rfl, rfl⟩ := pure_gives hpure
  refine (collect_gives
    (fun _ s os s' => s.Ends → s.rest.length < bound → ∃ ts, s.rest = ts ++ s'.rest ∧
      ReadsDeclarations s.nextId ts (os.filterMap id) s'.nextId) ?_ ?_ ?_ hread).1 ends hbound
  · intro _ s s' hstep _ _
    obtain ⟨closed, s₁, hsees, h₁⟩ := bind_gives hstep
    obtain ⟨-, rfl⟩ := sees_gives hsees
    obtain ⟨ended, s₂, hend, h₂⟩ := bind_gives h₁
    obtain ⟨-, rfl⟩ := atEnd_gives hend
    split at h₂
    · obtain ⟨-, rfl⟩ := pure_gives h₂
      exact ⟨[], rfl, .nil⟩
    · obtain ⟨_, _, _, hpure⟩ := bind_gives h₂
      cases (pure_gives hpure).1
  · exact fun _ s _ _ => ⟨[], rfl, .nil⟩
  · intro _ s o s₁ os s₂ hstep ih ends hbound
    have hlength := hstep.length_le
    have ends₁ := hstep.ends ends
    obtain ⟨closed, s₃, hsees, h₁⟩ := bind_gives hstep
    obtain ⟨-, rfl⟩ := sees_gives hsees
    obtain ⟨ended, s₄, hend, h₂⟩ := bind_gives h₁
    obtain ⟨-, rfl⟩ := atEnd_gives hend
    split at h₂
    · cases (pure_gives h₂).1
    · obtain ⟨o', s₅, hdeclaration, hpure⟩ := bind_gives h₂
      obtain ⟨ho, rfl⟩ := pure_gives hpure
      cases ho
      obtain ⟨t, isOpen, ts, rfl, hts, hreads, -⟩ := hd ends hbound hdeclaration
      obtain ⟨us, hus, hmore⟩ := ih ends₁ (by omega)
      exact ⟨ts ++ us, by rw [hts, hus, List.append_assoc], .cons hreads hmore⟩

include hd in
omit [Forward st] in
theorem block_gives {s s' : State} {body : List Stmt} (ends : s.Ends)
    (hbound : s.rest.length < bound) (h : Gives (block d) s body s') :
    ∃ ts closing, s.rest = ts ++ closing :: s'.rest ∧
      ReadsDeclarations s.nextId ts body s'.nextId ∧ closing.kind = .symbol .rightBrace := by
  unfold block at h
  obtain ⟨statements, s₁, hinside, h₁⟩ := bind_gives h
  obtain ⟨closing, s₂, hclosing, hpure⟩ := bind_gives h₁
  obtain ⟨rfl, rfl⟩ := pure_gives hpure
  obtain ⟨ts, hts, hreads⟩ := declarationsInside_gives hd ends hbound hinside
  obtain ⟨hrest, hmark, hs₂⟩ := expectMark_gives hclosing
  exact ⟨ts, closing, by rw [hts, hrest], by rw [hs₂]; exact hreads, hmark⟩

include hd in
omit [Forward st] in
theorem routine_gives {kind : Routine} {s s' : State} {f : FunctionDecl} (ends : s.Ends)
    (hbound : s.rest.length < bound) (h : Gives (routine kind d) s f s') :
    ∃ ts, s.rest = ts ++ s'.rest ∧ ReadsRoutine s.nextId ts f s'.nextId := by
  unfold routine at h
  obtain ⟨name, s₁, hname, h₁⟩ := bind_gives h
  obtain ⟨opening, s₂, hopening, h₂⟩ := bind_gives h₁
  obtain ⟨params, s₃, hparams, h₃⟩ := bind_gives h₂
  obtain ⟨closing, s₄, hclosing, h₄⟩ := bind_gives h₃
  obtain ⟨leftBrace, s₅, hleftBrace, h₅⟩ := bind_gives h₄
  obtain ⟨body, s₆, hbody, hpure⟩ := bind_gives h₅
  obtain ⟨rfl, rfl⟩ := pure_gives hpure
  have ends₁ := hname.ends ends
  have ends₂ := hopening.ends ends₁
  have ends₅ := hleftBrace.ends (hclosing.ends (hparams.ends ends₂))
  have hlength : s₅.rest.length ≤ s.rest.length :=
    hleftBrace.length_le.trans (hclosing.length_le.trans
      (hparams.length_le.trans (hopening.length_le.trans hname.length_le)))
  obtain ⟨hrest₁, hidentifier, hs₁⟩ := expect_gives hname
  obtain ⟨hrest₂, hopened, hs₂⟩ := expectMark_gives hopening
  obtain ⟨ts, hts, hreads, hid⟩ := parameters_gives ends₂ hparams
  obtain ⟨hrest₄, hclosed, hs₄⟩ := expectMark_gives hclosing
  obtain ⟨hrest₅, hbrace, hs₅⟩ := expectMark_gives hleftBrace
  obtain ⟨us, rightBrace, hus, hinside, hend⟩ := block_gives hd ends₅ (by omega) hbody
  have hid₅ : s₅.nextId = s.nextId := by rw [hs₅, hs₄, hid, hs₂, hs₁]
  refine ⟨name :: opening :: ts ++ closing :: leftBrace :: us ++ [rightBrace], ?_, ?_⟩
  · rw [hrest₁, hrest₂, hts, hrest₄, hrest₅, hus]
    simp
  · rw [hid₅] at hinside
    exact .intro hidentifier hopened hreads hclosed hbrace hinside hend

include hd in
omit [Forward st] in
theorem methodsInside_gives {s s' : State} {methods : List FunctionDecl} (ends : s.Ends)
    (hbound : s.rest.length < bound) (h : Gives (methodsInside d) s methods s') :
    ∃ ts, s.rest = ts ++ s'.rest ∧ ReadsRoutines s.nextId ts methods s'.nextId := by
  unfold methodsInside at h
  refine (collect_gives
    (fun _ s fs s' => s.Ends → s.rest.length < bound → ∃ ts, s.rest = ts ++ s'.rest ∧
      ReadsRoutines s.nextId ts fs s'.nextId) ?_ ?_ ?_ h).1 ends hbound
  · intro _ s s' hstep _ _
    obtain ⟨_, s₁, hsees, h₁⟩ := bind_gives hstep
    obtain ⟨-, rfl⟩ := sees_gives hsees
    obtain ⟨_, s₂, hend, h₂⟩ := bind_gives h₁
    obtain ⟨-, rfl⟩ := atEnd_gives hend
    split at h₂
    · obtain ⟨-, rfl⟩ := pure_gives h₂
      exact ⟨[], rfl, .nil⟩
    · obtain ⟨_, _, _, hpure⟩ := bind_gives h₂
      cases (pure_gives hpure).1
  · exact fun _ s _ _ => ⟨[], rfl, .nil⟩
  · intro _ s f s₁ fs s₂ hstep ih ends hbound
    have hlength := hstep.length_le
    have ends₁ := hstep.ends ends
    obtain ⟨_, s₃, hsees, h₁⟩ := bind_gives hstep
    obtain ⟨-, rfl⟩ := sees_gives hsees
    obtain ⟨_, s₄, hend, h₂⟩ := bind_gives h₁
    obtain ⟨-, rfl⟩ := atEnd_gives hend
    split at h₂
    · cases (pure_gives h₂).1
    · obtain ⟨f', s₅, hroutine, hpure⟩ := bind_gives h₂
      obtain ⟨hf, rfl⟩ := pure_gives hpure
      cases hf
      obtain ⟨ts, hts, hreads⟩ := routine_gives hd ends hbound hroutine
      obtain ⟨us, hus, hmore⟩ := ih ends₁ (by omega)
      exact ⟨ts ++ us, by rw [hts, hus, List.append_assoc], .cons hreads hmore⟩

include hd in
omit [Forward st] in
theorem classDeclaration_gives {s s' : State} {t : Stmt} (ends : s.Ends)
    (hbound : s.rest.length < bound) (h : Gives (classDeclaration d) s t s') {keyword : Token}
    (hkeyword : keyword.kind = .keyword .classKw) :
    ∃ ts, s.rest = ts ++ s'.rest ∧
      ReadsDeclaration false s.nextId (keyword :: ts) t s'.nextId := by
  rw [classDeclaration_eq] at h
  obtain ⟨name, s₁, hname, h₁⟩ := bind_gives h
  obtain ⟨opening, s₂, hopening, h₂⟩ := bind_gives h₁
  obtain ⟨methods, s₃, hmethods, h₃⟩ := bind_gives h₂
  obtain ⟨closing, s₄, hclosing, hpure⟩ := bind_gives h₃
  obtain ⟨rfl, rfl⟩ := pure_gives hpure
  have hlength : s₂.rest.length ≤ s.rest.length :=
    hopening.length_le.trans hname.length_le
  obtain ⟨hrest₁, hidentifier, hs₁⟩ := expect_gives hname
  obtain ⟨hrest₂, hopened, hs₂⟩ := expectMark_gives hopening
  obtain ⟨us, hus, hreads⟩ :=
    methodsInside_gives hd (hopening.ends (hname.ends ends)) (by omega) hmethods
  obtain ⟨hrest₄, hclosed, hs₄⟩ := expectMark_gives hclosing
  have hid : s₂.nextId = s.nextId := by rw [hs₂, hs₁]
  refine ⟨name :: opening :: us ++ [closing], ?_, ?_⟩
  · rw [hrest₁, hrest₂, hus, hrest₄]
    simp
  · rw [hid] at hreads
    rw [hs₄]
    exact .classDecl hkeyword hidentifier hopened hreads hclosed

include hst

omit [Forward d] in
theorem ifStatement_gives {s s' : State} {t : Stmt} (ends : s.Ends) (hbound : s.rest.length < bound)
    (h : Gives (ifStatement st) s t s') {keyword : Token}
    (hkeyword : keyword.kind = .keyword .ifKw) :
    ∃ isOpen ts, s.rest = ts ++ s'.rest ∧
      ReadsStatement isOpen s.nextId (keyword :: ts) t s'.nextId ∧
      (isOpen = true → NotNext (.keyword .elseKw) s'.rest) := by
  unfold ifStatement at h
  obtain ⟨opening, s₁, hopening, h₁⟩ := bind_gives h
  obtain ⟨condition, s₂, hcondition, h₂⟩ := bind_gives h₁
  obtain ⟨closing, s₃, hclosing, h₃⟩ := bind_gives h₂
  obtain ⟨thenBranch, s₄, hthen, h₄⟩ := bind_gives h₃
  have ends₁ := hopening.ends ends
  have ends₃ := hclosing.ends (hcondition.ends ends₁)
  have hlength : s₃.rest.length ≤ s.rest.length :=
    hclosing.length_le.trans (hcondition.length_le.trans hopening.length_le)
  have hlength₄ := hthen.length_le
  obtain ⟨hrest₁, hopened, hs₁⟩ := expectMark_gives hopening
  obtain ⟨ts, hts, hreads⟩ := expression_gives ends₁ hcondition
  obtain ⟨hrest₃, hclosed, hs₃⟩ := expectMark_gives hclosing
  obtain ⟨isOpen, us, hus, hthenReads, hfollow⟩ := hst ends₃ (by omega) hthen
  have hid₁ : s₁.nextId = s.nextId := by rw [hs₁]
  have hid₃ : s₃.nextId = s₂.nextId := by rw [hs₃]
  rw [hid₁] at hreads
  rw [hid₃] at hthenReads
  obtain ⟨taken, s₅, haccept, h₅⟩ := bind_gives h₄
  obtain ⟨rfl, elseKeyword, hrest₅, helse, hs₅⟩ | ⟨rfl, hnext, rfl⟩ := accept_gives haccept
  · rw [if_pos rfl] at h₅
    have hlength₅ := haccept.length_le
    obtain ⟨elseBranch, s₆, helseBranch, hpure⟩ := bind_gives h₅
    obtain ⟨rfl, rfl⟩ := pure_gives hpure
    obtain ⟨isOpen', vs, hvs, helseReads, hfollow'⟩ :=
      hst (haccept.ends (hthen.ends ends₃)) (by omega) helseBranch
    have hid₅ : s₅.nextId = s₄.nextId := by rw [hs₅]
    rw [hid₅] at helseReads
    -- The branch in front of `else` is not open, or it would have taken the word.
    have closed : isOpen = false := by
      cases isOpen with
      | false => rfl
      | true => exact absurd helse (hfollow rfl elseKeyword (by rw [hrest₅]; rfl))
    subst closed
    refine ⟨isOpen', opening :: ts ++ closing :: us ++ elseKeyword :: vs, ?_, ?_, hfollow'⟩
    · rw [hrest₁, hts, hrest₃, hus, hrest₅, hvs]
      simp
    · exact .ifElse hkeyword hopened hreads hclosed hthenReads helse helseReads
  · rw [if_neg Bool.false_ne_true] at h₅
    obtain ⟨rfl, rfl⟩ := pure_gives h₅
    refine ⟨true, opening :: ts ++ closing :: us, ?_, ?_, fun _ => hnext⟩
    · rw [hrest₁, hts, hrest₃, hus]
      simp
    · exact .ifThen hkeyword hopened hreads hclosed hthenReads

omit [Forward d] in
theorem whileStatement_gives {s s' : State} {t : Stmt} (ends : s.Ends)
    (hbound : s.rest.length < bound) (h : Gives (whileStatement st) s t s') {keyword : Token}
    (hkeyword : keyword.kind = .keyword .whileKw) :
    ∃ isOpen ts, s.rest = ts ++ s'.rest ∧
      ReadsStatement isOpen s.nextId (keyword :: ts) t s'.nextId ∧
      (isOpen = true → NotNext (.keyword .elseKw) s'.rest) := by
  unfold whileStatement at h
  obtain ⟨opening, s₁, hopening, h₁⟩ := bind_gives h
  obtain ⟨condition, s₂, hcondition, h₂⟩ := bind_gives h₁
  obtain ⟨closing, s₃, hclosing, h₃⟩ := bind_gives h₂
  obtain ⟨body, s₄, hbody, hpure⟩ := bind_gives h₃
  obtain ⟨rfl, rfl⟩ := pure_gives hpure
  have ends₁ := hopening.ends ends
  have hlength : s₃.rest.length ≤ s.rest.length :=
    hclosing.length_le.trans (hcondition.length_le.trans hopening.length_le)
  obtain ⟨hrest₁, hopened, hs₁⟩ := expectMark_gives hopening
  obtain ⟨ts, hts, hreads⟩ := expression_gives ends₁ hcondition
  obtain ⟨hrest₃, hclosed, hs₃⟩ := expectMark_gives hclosing
  obtain ⟨isOpen, us, hus, hbodyReads, hfollow⟩ :=
    hst (hclosing.ends (hcondition.ends ends₁)) (by omega) hbody
  have hid₁ : s₁.nextId = s.nextId := by rw [hs₁]
  have hid₃ : s₃.nextId = s₂.nextId := by rw [hs₃]
  rw [hid₁] at hreads
  rw [hid₃] at hbodyReads
  refine ⟨isOpen, opening :: ts ++ closing :: us, ?_, ?_, hfollow⟩
  · rw [hrest₁, hts, hrest₃, hus]
    simp
  · exact .whileLoop hkeyword hopened hreads hclosed hbodyReads

omit [Forward st] [Forward d] hst in
theorem forInitializer_gives : ReadBy ReadsInitializer forInitializer := by
  intro s first s' ends h
  unfold forInitializer at h
  obtain ⟨taken, s₁, haccept, h₁⟩ := bind_gives h
  obtain ⟨rfl, semicolon, hrest, hmark, hs₁⟩ | ⟨rfl, -, rfl⟩ := accept_gives haccept
  · rw [if_pos rfl] at h₁
    obtain ⟨rfl, rfl⟩ := pure_gives h₁
    refine ⟨[semicolon], hrest, ?_⟩
    rw [hs₁]
    exact .none hmark
  rw [if_neg Bool.false_ne_true] at h₁
  obtain ⟨taken, s₂, haccept', h₂⟩ := bind_gives h₁
  obtain ⟨rfl, keyword, hrest, hkeyword, hs₂⟩ | ⟨rfl, -, rfl⟩ := accept_gives haccept'
  · rw [if_pos rfl] at h₂
    obtain ⟨t, s₃, hvariable, hpure⟩ := bind_gives h₂
    obtain ⟨rfl, rfl⟩ := pure_gives hpure
    obtain ⟨ts, hts, hreads⟩ := varDeclaration_gives (haccept'.ends ends) hvariable
    have hid : s₂.nextId = s₁.nextId := by rw [hs₂]
    rw [hid] at hreads
    exact ⟨keyword :: ts, by rw [hrest, hts]; rfl, .varDecl hkeyword hreads⟩
  · rw [if_neg Bool.false_ne_true] at h₂
    obtain ⟨t, s₃, hexpression, hpure⟩ := bind_gives h₂
    obtain ⟨rfl, rfl⟩ := pure_gives hpure
    obtain ⟨e, ts, semicolon, rfl, hts, hreads, hmark⟩ := expressionStatement_gives ends hexpression
    exact ⟨ts ++ [semicolon], by rw [hts]; simp, .expression hreads hmark⟩

omit [Forward d] in
theorem forStatement_gives {s s' : State} {t : Stmt} (ends : s.Ends)
    (hbound : s.rest.length < bound) (h : Gives (forStatement st) s t s') {keyword : Token}
    (hkeyword : keyword.kind = .keyword .forKw) :
    ∃ isOpen ts, s.rest = ts ++ s'.rest ∧
      ReadsStatement isOpen s.nextId (keyword :: ts) t s'.nextId ∧
      (isOpen = true → NotNext (.keyword .elseKw) s'.rest) := by
  rw [forStatement_eq] at h
  obtain ⟨opening, s₁, hopening, h₁⟩ := bind_gives h
  obtain ⟨first, s₂, hfirst, h₂⟩ := bind_gives h₁
  obtain ⟨condition, s₃, hcondition, h₃⟩ := bind_gives h₂
  obtain ⟨semicolon, s₄, hsemicolon, h₄⟩ := bind_gives h₃
  obtain ⟨step, s₅, hstep, h₅⟩ := bind_gives h₄
  obtain ⟨closing, s₆, hclosing, h₆⟩ := bind_gives h₅
  obtain ⟨body, s₇, hbody, hpure⟩ := bind_gives h₆
  obtain ⟨rfl, rfl⟩ := pure_gives hpure
  have ends₁ := hopening.ends ends
  have ends₂ := hfirst.ends ends₁
  have ends₄ := hsemicolon.ends (hcondition.ends ends₂)
  have ends₆ := hclosing.ends (hstep.ends ends₄)
  have hlength : s₆.rest.length ≤ s.rest.length :=
    hclosing.length_le.trans (hstep.length_le.trans (hsemicolon.length_le.trans
      (hcondition.length_le.trans (hfirst.length_le.trans hopening.length_le))))
  obtain ⟨hrest₁, hopened, hs₁⟩ := expectMark_gives hopening
  obtain ⟨ts, hts, hfirstReads⟩ := forInitializer_gives ends₁ hfirst
  obtain ⟨us, hus, hconditionReads⟩ := optionalBefore_gives ends₂ hcondition
  obtain ⟨hrest₄, hmark, hs₄⟩ := expectMark_gives hsemicolon
  obtain ⟨vs, hvs, hstepReads⟩ := optionalBefore_gives ends₄ hstep
  obtain ⟨hrest₆, hclosed, hs₆⟩ := expectMark_gives hclosing
  obtain ⟨isOpen, ws, hws, hbodyReads, hfollow⟩ := hst ends₆ (by omega) hbody
  have hid₁ : s₁.nextId = s.nextId := by rw [hs₁]
  have hid₄ : s₄.nextId = s₃.nextId := by rw [hs₄]
  have hid₆ : s₆.nextId = s₅.nextId := by rw [hs₆]
  rw [hid₁] at hfirstReads
  rw [hid₄] at hstepReads
  rw [hid₆] at hbodyReads
  refine ⟨isOpen, opening :: ts ++ us ++ semicolon :: vs ++ closing :: ws, ?_, ?_, hfollow⟩
  · rw [hrest₁, hts, hus, hrest₄, hvs, hrest₆, hws]
    simp
  · exact .forLoop hkeyword hopened hfirstReads hconditionReads hmark hstepReads hclosed hbodyReads

theorem statementRule_gives (hd : GivesDeclarations d bound) :
    GivesStatements (statementRule st d) (bound + 1) := by
  intro s t s' ends hbound h
  cases hs : s.rest with
  | nil =>
    have h' := h.of_eq (statementRule_end st d hs) rfl
    obtain ⟨e, ts, semicolon, rfl, hts, -⟩ := expressionStatement_gives ends h'
    rw [hs] at hts
    cases ts <;> cases hts
  | cons token rest =>
    have hlength : rest.length < bound := by
      rw [hs, List.length_cons] at hbound
      omega
    have run := statementRule_run st d hs
    have compound : ∀ {isOpen ts}, rest = ts ++ s'.rest →
        ReadsStatement isOpen s.nextId (token :: ts) t s'.nextId →
        (isOpen = true → NotNext (.keyword .elseKw) s'.rest) →
        ∃ isOpen ts, token :: rest = ts ++ s'.rest ∧
          ReadsStatement isOpen s.nextId ts t s'.nextId ∧
          (isOpen = true → NotNext (.keyword .elseKw) s'.rest) :=
      fun hrest hreads hfollow => ⟨_, _, congrArg (token :: ·) hrest, hreads, hfollow⟩
    split at run
    · next hkind =>
      obtain ⟨isOpen, ts, hts, hreads, hfollow⟩ :=
        forStatement_gives hst (s := { s with rest := rest }) ends hlength (h.of_eq run rfl) hkind
      exact compound hts hreads hfollow
    · next hkind =>
      obtain ⟨isOpen, ts, hts, hreads, hfollow⟩ :=
        ifStatement_gives hst (s := { s with rest := rest }) ends hlength (h.of_eq run rfl) hkind
      exact compound hts hreads hfollow
    · next hkind =>
      obtain ⟨isOpen, ts, hts, hreads, hfollow⟩ :=
        whileStatement_gives hst (s := { s with rest := rest }) ends hlength (h.of_eq run rfl) hkind
      exact compound hts hreads hfollow
    · next hkind =>
      obtain ⟨ts, hts, hreads⟩ := returnStatement_gives (s := { s with rest := rest }) ends
        (h.of_eq run rfl) hkind
      exact compound hts hreads nofun
    · next hkind =>
      obtain ⟨body, hblock, rfl⟩ := map_gives (h.of_eq run rfl)
      obtain ⟨ts, closing, hts, hreads, hclosed⟩ :=
        block_gives hd (s := { s with rest := rest }) ends hlength hblock
      have hrest : rest = (ts ++ [closing]) ++ s'.rest := by
        rw [show rest = _ from hts]
        simp
      exact compound hrest (.block hkind hreads hclosed) nofun
    · next hkind =>
      obtain ⟨ts, hts, hreads⟩ := printStatement_gives (s := { s with rest := rest }) ends
        (h.of_eq run rfl) hkind
      exact compound hts hreads nofun
    · obtain ⟨e, ts, semicolon, rfl, hts, hreads, hmark⟩ :=
        expressionStatement_gives ends (h.of_eq run rfl)
      exact ⟨false, ts ++ [semicolon], by rw [← hs, hts]; simp, .expression hreads hmark, nofun⟩

omit [Forward st] hst in
/-- Recovery gives what its parser gives, so a declaration is given by one of the rules. -/
theorem declarationRule_gives {st' : Parser Stmt} [Forward st']
    (hst' : GivesStatements st' (bound + 1)) (hd : GivesDeclarations d bound) :
    GivesDeclarations (declarationRule st' d) (bound + 1) := by
  intro s o s' ends hbound h
  rw [declarationRule_eq] at h
  obtain ⟨t, rfl, hbody⟩ := recovering_gives h
  refine ⟨t, ?_⟩
  have statement : Gives st' s t s' → ∃ isOpen ts, some t = some t ∧ s.rest = ts ++ s'.rest ∧
      ReadsDeclaration isOpen s.nextId ts t s'.nextId ∧
      (isOpen = true → NotNext (.keyword .elseKw) s'.rest) := by
    intro h
    obtain ⟨isOpen, ts, hts, hreads, hfollow⟩ := hst' ends hbound h
    exact ⟨isOpen, ts, rfl, hts, .statement hreads, hfollow⟩
  cases hs : s.rest with
  | nil => exact hs ▸ statement (hbody.of_eq (declarationBody_end st' d hs) rfl)
  | cons token rest =>
    have hlength : rest.length < bound := by
      rw [hs, List.length_cons] at hbound
      omega
    have run := declarationBody_run st' d hs
    split at run
    · next hkind =>
      obtain ⟨ts, hts, hreads⟩ := classDeclaration_gives hd (s := { s with rest := rest }) ends
        hlength (hbody.of_eq run rfl) hkind
      exact ⟨false, token :: ts, rfl, congrArg (token :: ·) hts, hreads, nofun⟩
    · next hkind =>
      obtain ⟨f, hroutine, rfl⟩ := map_gives (hbody.of_eq run rfl)
      obtain ⟨ts, hts, hreads⟩ := routine_gives hd (s := { s with rest := rest }) ends hlength
        hroutine
      exact ⟨false, token :: ts, rfl, congrArg (token :: ·) hts, .funDecl hkind hreads, nofun⟩
    · next hkind =>
      obtain ⟨ts, hts, hreads⟩ := varDeclaration_gives (s := { s with rest := rest }) ends
        (hbody.of_eq run rfl)
      exact ⟨false, token :: ts, rfl, congrArg (token :: ·) hts, .varDecl hkind hreads, nofun⟩
    · exact hs ▸ statement (hbody.of_eq run rfl)

end

/-- The depth of nesting bounds the number of tokens left, so it is never reached. -/
theorem upTo_gives (depth : Nat) :
    GivesStatements (statementUpTo depth) depth ∧ GivesDeclarations (declarationUpTo depth) depth := by
  induction depth with
  | zero =>
    exact ⟨fun _ hbound => absurd hbound (Nat.not_lt_zero _),
      fun _ hbound => absurd hbound (Nat.not_lt_zero _)⟩
  | succ depth ih =>
    have hst : GivesStatements (statementUpTo (depth + 1)) (depth + 1) :=
      statementRule_gives ih.1 ih.2
    exact ⟨hst, declarationRule_gives hst ih.2⟩

/-- What the parser of declarations gives is spelled by what it takes. -/
theorem declaration_gives {s s' : State} {o : Option Stmt} (ends : s.Ends)
    (h : Gives declaration s o s') :
    ∃ t isOpen ts, o = some t ∧ s.rest = ts ++ s'.rest ∧
      ReadsDeclaration isOpen s.nextId ts t s'.nextId := by
  unfold declaration at h
  obtain ⟨t, isOpen, ts, ho, hts, hreads, -⟩ :=
    (upTo_gives _).2 ends (Nat.lt_succ_self _) (get_gives h)
  exact ⟨t, isOpen, ts, ho, hts, hreads⟩

end Lox.Parser
