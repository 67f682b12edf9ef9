import Lox.Proofs.Renaming.Scopes

/-!
# Tokens with other names

How tokens spell a tree depends on their kinds alone. So a tree whose names are called otherwise is
spelled by the same tokens, but for names that are the new one instead
(`respelt_of_declarations`).
-/

namespace Lox

open Renaming

/-- The tokens stay, but some names have got the new one. -/
def Retold (new : String) : List Token → List Token → Prop := List.Forall₂ (Token.Respelt new)

theorem Token.Respelt.kind {new : String} {token token' : Token}
    (h : Token.Respelt new token token') : token'.kind = token.kind := by
  cases h <;> rfl

namespace Retold

variable {new : String} {ts ts' us us' : List Token}

theorem nil : Retold new [] [] := List.Forall₂.nil

theorem first {token token' : Token} (h : Token.Respelt new token token') (hmore : Retold new ts ts') :
    Retold new (token :: ts) (token' :: ts') :=
  List.Forall₂.cons h hmore

theorem cons (token : Token) (h : Retold new ts ts') : Retold new (token :: ts) (token :: ts') :=
  first (.same token) h

theorem single {token token' : Token} (h : Token.Respelt new token token') :
    Retold new [token] [token'] :=
  first h nil

theorem append (h : Retold new ts ts') (h' : Retold new us us') :
    Retold new (ts ++ us) (ts' ++ us') :=
  List.rel_append h h'

theorem close (h : Retold new ts ts') (token : Token) : Retold new (ts ++ [token]) (ts' ++ [token]) :=
  h.append (nil.cons token)

end Retold

/-! ## Expressions -/

/-- What becomes of the names among the tokens. -/
def Spells (new : String) (f : OccurrenceId → Token → Token) (ts : List Token) : Prop :=
  ∀ id, ∀ token ∈ ts, token.kind = .identifier → Token.Respelt new token (f id token)

theorem spells_cons {new : String} {f : OccurrenceId → Token → Token} {token : Token}
    {ts : List Token} (h : Spells new f (token :: ts)) : Spells new f ts :=
  fun id token htoken => h id token (List.mem_cons_of_mem _ htoken)

theorem spells_append {new : String} {f : OccurrenceId → Token → Token} {ts us : List Token}
    (h : Spells new f (ts ++ us)) : Spells new f ts ∧ Spells new f us :=
  ⟨fun id token htoken => h id token (List.mem_append_left us htoken),
    fun id token htoken => h id token (List.mem_append_right ts htoken)⟩

theorem Expr.length_respellAll (f : OccurrenceId → Token → Token) (es : List Expr) :
    (Expr.respellAll f es).length = es.length := by
  induction es with
  | nil => rfl
  | cons first more ih => rw [Expr.respellAll, List.length_cons, List.length_cons, ih]

/-- The trees of a tier are respelled part by part. -/
def Parser.Tier.Respells (tier : Parser.Tier) : Prop :=
  ∀ f left operator right,
    (tier.node left operator right).respell f =
      tier.node (left.respell f) operator (right.respell f)

theorem tiers_respell : ∀ tier ∈ Parser.tiers, tier.Respells := by
  simp only [Parser.tiers, List.forall_mem_cons]
  refine ⟨?_, ?_, ?_, ?_, ?_, ?_, fun _ h => absurd h List.not_mem_nil⟩ <;>
    exact fun _ _ _ _ => rfl

/-- The tree with other names is spelled by tokens with other names. -/
def Expr.Retells (new : String) (rule : ExprRule) (n : Nat) (ts : List Token) (e : Expr) (n' : Nat) :
    Prop :=
  ∀ f, Spells new f ts → ∃ ts', Retold new ts ts' ∧ ReadsExpr rule n ts' (e.respell f) n'

/-- The same, if the operators are respelled part by part. -/
def Expr.RetellsBy (new : String) : ExprRule → Nat → List Token → Expr → Nat → Prop
  | .climb tiers, n, ts, e, n' =>
    (∀ tier ∈ tiers, tier.Respells) → Expr.Retells new (.climb tiers) n ts e n'
  | rule, n, ts, e, n' => Expr.Retells new rule n ts e n'

section

variable {new : String}

mutual

theorem retells_of_reads {rule : ExprRule} {n n' : Nat} {ts : List Token} {e : Expr} :
    ReadsExpr rule n ts e n' → Expr.RetellsBy new rule n ts e n'
  | .literal h => fun _ _ => ⟨_, Retold.nil.cons _, .literal h⟩
  | .this h => fun _ _ => ⟨_, Retold.nil.cons _, .this h⟩
  | @ReadsExpr.var n token h => fun f hf => by
    have name := hf n token (List.mem_singleton_self _) h
    exact ⟨_, Retold.single name, .var (name.kind.trans h)⟩
  | .grouping hopening hinner hclosing => fun f hf => by
    have inner : Expr.Retells .. := retells_of_reads hinner
    obtain ⟨us, hus, reads⟩ := inner f (spells_cons (spells_append hf).1)
    exact ⟨_, (hus.cons _).close _, .grouping hopening reads hclosing⟩
  | .primary h => fun f hf => by
    have inner : Expr.Retells .. := retells_of_reads h
    obtain ⟨us, hus, reads⟩ := inner f hf
    exact ⟨us, hus, .primary reads⟩
  | .call hcallee hopening harguments hclosing => fun f hf => by
    have callee : Expr.Retells .. := retells_of_reads hcallee
    obtain ⟨hfcallee, hfarguments⟩ := spells_append (spells_append hf).1
    obtain ⟨us, hus, readsCallee⟩ := callee f hfcallee
    obtain ⟨vs, hvs, readsArguments⟩ := retells_of_arguments harguments f (spells_cons hfarguments)
    exact ⟨_, (hus.append (hvs.cons _)).close _,
      .call readsCallee hopening readsArguments hclosing⟩
  | .get hobject hdot hname => fun f hf => by
    have object : Expr.Retells .. := retells_of_reads hobject
    obtain ⟨us, hus, reads⟩ := object f (spells_append hf).1
    exact ⟨_, hus.append ((Retold.nil.cons _).cons _), .get reads hdot hname⟩
  | .applied h => fun f hf => by
    have inner : Expr.Retells .. := retells_of_reads h
    obtain ⟨us, hus, reads⟩ := inner f hf
    exact ⟨us, hus, .applied reads⟩
  | .unary hoperator h => fun f hf => by
    have operand : Expr.Retells .. := retells_of_reads h
    obtain ⟨us, hus, reads⟩ := operand f (spells_cons hf)
    exact ⟨_, hus.cons _, .unary hoperator reads⟩
  | .prefixed h => fun _ f hf => by
    have inner : Expr.Retells .. := retells_of_reads h
    obtain ⟨us, hus, reads⟩ := inner f hf
    exact ⟨us, hus, .prefixed reads⟩
  | .operand h => fun respells f hf => by
    have inner := retells_of_reads h (List.forall_mem_cons.mp respells).2
    obtain ⟨us, hus, reads⟩ := inner f hf
    exact ⟨us, hus, .operand reads⟩
  | .operator hleft hoperator hright => fun respells f hf => by
    have left := retells_of_reads hleft respells
    have right := retells_of_reads hright (List.forall_mem_cons.mp respells).2
    obtain ⟨hfleft, hfright⟩ := spells_append hf
    obtain ⟨us, hus, readsLeft⟩ := left f hfleft
    obtain ⟨vs, hvs, readsRight⟩ := right f (spells_cons hfright)
    rw [(List.forall_mem_cons.mp respells).1]
    exact ⟨_, hus.append (hvs.cons _), .operator readsLeft hoperator readsRight⟩
  | .loosest h => fun f hf => by
    have inner := retells_of_reads h tiers_respell
    obtain ⟨us, hus, reads⟩ := inner f hf
    exact ⟨us, hus, .loosest reads⟩
  | @ReadsExpr.assign n ts id name n₁ equal us value n₂ htarget hequal hvalue => fun f hf => by
    have target := retells_of_reads htarget tiers_respell
    have assigned : Expr.Retells .. := retells_of_reads hvalue
    obtain ⟨hftarget, hfvalue⟩ := spells_append hf
    -- the name is called as the occurrence behind its value, which is the one that stays
    obtain ⟨us, hus, readsTarget⟩ := target (fun _ => f n₂) fun _ => hftarget n₂
    obtain ⟨vs, hvs, readsValue⟩ := assigned f (spells_cons hfvalue)
    exact ⟨_, hus.append (hvs.cons _), .assign readsTarget hequal readsValue⟩
  | .set htarget hequal hvalue => fun f hf => by
    have target := retells_of_reads htarget tiers_respell
    have stored : Expr.Retells .. := retells_of_reads hvalue
    obtain ⟨hftarget, hfvalue⟩ := spells_append hf
    obtain ⟨us, hus, readsTarget⟩ := target f hftarget
    obtain ⟨vs, hvs, readsValue⟩ := stored f (spells_cons hfvalue)
    exact ⟨_, hus.append (hvs.cons _), .set readsTarget hequal readsValue⟩

theorem retells_of_arguments {n n' : Nat} {ts : List Token} {es : List Expr} :
    ReadsArguments n ts es n' → ∀ f, Spells new f ts →
      ∃ ts', Retold new ts ts' ∧ ReadsArguments n ts' (Expr.respellAll f es) n'
  | .none => fun _ _ => ⟨[], .nil, .none⟩
  | .some h hlength => fun f hf => by
    obtain ⟨us, hus, reads⟩ := retells_of_items h f hf
    exact ⟨us, hus, .some reads (by rwa [Expr.length_respellAll])⟩

theorem retells_of_items {n n' : Nat} {ts : List Token} {es : List Expr} :
    ReadsItems n ts es n' → ∀ f, Spells new f ts →
      ∃ ts', Retold new ts ts' ∧ ReadsItems n ts' (Expr.respellAll f es) n'
  | .last h => fun f hf => by
    have item : Expr.Retells .. := retells_of_reads h
    obtain ⟨us, hus, reads⟩ := item f hf
    exact ⟨us, hus, .last reads⟩
  | .more h hcomma hmore => fun f hf => by
    have item : Expr.Retells .. := retells_of_reads h
    obtain ⟨hfirst, hfmore⟩ := spells_append hf
    obtain ⟨us, hus, reads⟩ := item f hfirst
    obtain ⟨vs, hvs, readsMore⟩ := retells_of_items hmore f (spells_cons hfmore)
    exact ⟨_, hus.append (hvs.cons _), .more reads hcomma readsMore⟩

end

end

/-! ## Parts of declarations -/

section

variable {s : Respelling} {ρs : List Renaming}

/-- A name that is not the new one stays or becomes it. -/
theorem Respelling.respelt_called {token : Token} {called : String}
    (hkind : token.kind = .identifier)
    (hcalled : called = token.lexeme ∨ token.lexeme = s.old ∧ called = s.new) :
    Token.Respelt s.new token (token.called called) := by
  rcases hcalled with rfl | ⟨-, rfl⟩
  · exact .same token
  · exact .called hkind

theorem Respelling.FitsAll.spells (h : s.FitsAll ρs) {ts : List Token} (hts : Without s.new ts) :
    Spells s.new (s.spelled ρs) ts :=
  fun id token htoken hkind =>
    s.respelt_called hkind (h.calledAt (s.distance? id) (hts token htoken))

/-- A declared name stays or becomes the new one. -/
theorem Respelling.Fits.respelt {ρ : Renaming} (h : s.Fits ρ) {name : Token}
    (hkind : name.kind = .identifier) (hname : name.lexeme ≠ s.new) :
    Token.Respelt s.new name (name.called (ρ.names name.lexeme)) :=
  s.respelt_called hkind (h name.lexeme hname)

theorem respelt_of_reads {n n' : Nat} {ts : List Token} {e : Expr}
    (h : ReadsExpr .whole n ts e n') (hts : Without s.new ts) (hfits : s.FitsAll ρs) :
    ∃ ts', Retold s.new ts ts' ∧ ReadsExpr .whole n ts' (e.respell (s.spelled ρs)) n' := by
  have retells : Expr.Retells s.new .whole n ts e n' := retells_of_reads h
  exact retells _ (hfits.spells hts)

theorem respelt_of_optional {n n' : Nat} {ts : List Token} {value : Option Expr}
    (h : ReadsOptional n ts value n') (hts : Without s.new ts) (hfits : s.FitsAll ρs) :
    ∃ ts', Retold s.new ts ts' ∧
      ReadsOptional n ts' (value.map (Expr.respell (s.spelled ρs))) n' := by
  cases h with
  | none => exact ⟨[], .nil, .none⟩
  | some h =>
    obtain ⟨us, hus, reads⟩ := respelt_of_reads h hts hfits
    exact ⟨us, hus, .some reads⟩

theorem respelt_of_names {ρ : Renaming} (hρ : s.Fits ρ) {ts names : List Token} :
    ReadsNames ts names → Without s.new ts → ∃ ts', Retold s.new ts ts' ∧
      ReadsNames ts' (names.map fun name => name.called (ρ.names name.lexeme)) := by
  intro h hts
  induction h with
  | last h =>
    have name := hρ.respelt h (without_cons.mp hts).1
    exact ⟨_, .single name, .last (name.kind.trans h)⟩
  | more h hcomma _ ih =>
    simp only [without_cons] at hts
    have name := hρ.respelt h hts.1
    obtain ⟨us, hus, reads⟩ := ih hts.2.2
    exact ⟨_, Retold.first name (hus.cons _), .more (name.kind.trans h) hcomma reads⟩

theorem respelt_of_parameters {ρ : Renaming} (hρ : s.Fits ρ) {ts names : List Token}
    (h : ReadsParameters ts names) (hts : Without s.new ts) : ∃ ts', Retold s.new ts ts' ∧
      ReadsParameters ts' (names.map fun name => name.called (ρ.names name.lexeme)) := by
  cases h with
  | none => exact ⟨[], .nil, .none⟩
  | some h hlength =>
    obtain ⟨us, hus, reads⟩ := respelt_of_names hρ h hts
    exact ⟨us, hus, .some reads (by rwa [List.length_map])⟩

theorem respelt_of_variable {n n' : Nat} {ts : List Token} {t t' : Stmt}
    (h : ReadsVariable n ts t n') (hts : Without s.new ts) (hfits : s.FitsAll ρs)
    (ht : t.Respelt s ρs t') : ∃ ts', Retold s.new ts ts' ∧ ReadsVariable n ts' t' n' := by
  cases h with
  | bare h hsemicolon =>
    cases ht with
    | varDecl hname hvalue =>
      subst hname hvalue
      have name := hfits.innermost.respelt h (without_cons.mp hts).1
      exact ⟨_, Retold.first name (Retold.nil.cons _), .bare (name.kind.trans h) hsemicolon⟩
  | initialized h hequal hvalue hsemicolon =>
    cases ht with
    | varDecl hname heq =>
      subst hname heq
      simp only [List.cons_append, without_cons, without_append] at hts
      obtain ⟨htsName, -, htsValue, -⟩ := hts
      have name := hfits.innermost.respelt h htsName
      obtain ⟨us, hus, reads⟩ := respelt_of_reads hvalue htsValue hfits
      exact ⟨_, (Retold.first name (hus.cons _)).close _,
        .initialized (name.kind.trans h) hequal reads hsemicolon⟩

theorem respelt_of_initializer {n n' : Nat} {ts : List Token} {first first' : Option Stmt}
    (h : ReadsInitializer n ts first n') (hts : Without s.new ts) (hfits : s.FitsAll ρs)
    (hfirst : Option.Rel (Stmt.Respelt s ρs) first first') :
    ∃ ts', Retold s.new ts ts' ∧ ReadsInitializer n ts' first' n' := by
  cases h with
  | none hsemicolon =>
    cases hfirst
    exact ⟨_, Retold.nil.cons _, .none hsemicolon⟩
  | varDecl hkeyword h =>
    cases hfirst with
    | some hfirst =>
      obtain ⟨us, hus, reads⟩ := respelt_of_variable h (without_cons.mp hts).2 hfits hfirst
      exact ⟨_, hus.cons _, .varDecl hkeyword reads⟩
  | expression h hsemicolon =>
    cases hfirst with
    | some hfirst =>
      cases hfirst with
      | expression hvalue =>
        subst hvalue
        obtain ⟨us, hus, reads⟩ := respelt_of_reads h (without_append.mp hts).1 hfits
        exact ⟨_, hus.close _, .expression reads hsemicolon⟩

/-! ## Loops -/

/-- A `for` loop with its names called otherwise is one whose parts are. The initializer may have a
scope of its own, and so may one round. -/
theorem respelt_forLoop (hfits : s.FitsAll ρs) {first : Option Stmt} {condition step : Option Expr}
    {body t' : Stmt} (h : (Stmt.forLoop first condition step body).Respelt s ρs t') :
    ∃ σs τs first' body', s.FitsAll σs ∧ s.FitsAll τs ∧
      Option.Rel (Stmt.Respelt s σs) first first' ∧ body.Respelt s τs body' ∧
      t' = .forLoop first' (condition.map (Expr.respell (s.spelled σs)))
        (step.map (Expr.respell (s.spelled τs))) body' := by
  have loop {σs : List Renaming} (hσs : s.FitsAll σs) {u' : Stmt}
      (h : (Stmt.forLoop none condition step body).Respelt s σs u') :
      ∃ τs body', s.FitsAll τs ∧ body.Respelt s τs body' ∧
        u' = .forLoop none (condition.map (Expr.respell (s.spelled σs)))
          (step.map (Expr.respell (s.spelled τs))) body' := by
    have test : (condition.getD (.literal (.boolean true))).respell (s.spelled σs) =
        (condition.map (Expr.respell (s.spelled σs))).getD (.literal (.boolean true)) := by
      cases condition <;> rfl
    cases step with
    | none =>
      cases h with
      | whileLoop hcondition hbody =>
        subst hcondition
        rw [test]
        exact ⟨σs, _, hσs, hbody, rfl⟩
    | some step =>
      cases h with
      | whileLoop hcondition hround =>
        subst hcondition
        rw [test]
        cases hround with
        | block τ hτ hround =>
          cases hround with
          | cons hbody hmore =>
            cases hmore with
            | cons hstep hnil =>
              cases hstep with
              | expression hstep =>
                subst hstep
                cases hnil
                exact ⟨τ :: σs, _, hσs.cons hτ, hbody, rfl⟩
  cases first with
  | none =>
    obtain ⟨τs, body', hτs, hbody, rfl⟩ := loop hfits h
    exact ⟨ρs, τs, none, body', hfits, hτs, .none, hbody, rfl⟩
  | some first =>
    cases h with
    | block σ hσ hinside =>
      cases hinside with
      | cons hfirst hmore =>
        cases hmore with
        | cons hloop hnil =>
          cases hnil
          obtain ⟨τs, body', hτs, hbody, rfl⟩ := loop (hfits.cons hσ) hloop
          exact ⟨σ :: ρs, τs, some _, body', hfits.cons hσ, hτs, .some hfirst, hbody, rfl⟩

end

/-! ## Statements and declarations -/

section

variable {s : Respelling}

mutual

theorem respelt_of_statement {isOpen : Bool} {n n' : Nat} {ts : List Token} {t : Stmt} :
    ReadsStatement isOpen n ts t n' → Without s.new ts → ∀ {ρs : List Renaming} {t' : Stmt},
      s.FitsAll ρs → t.Respelt s ρs t' →
      ∃ ts', Retold s.new ts ts' ∧ ReadsStatement isOpen n ts' t' n'
  | .expression h hsemicolon, hts, _, _, hfits, ht => by
    cases ht with
    | expression hvalue =>
      subst hvalue
      obtain ⟨us, hus, reads⟩ := respelt_of_reads h (without_append.mp hts).1 hfits
      exact ⟨_, hus.close _, .expression reads hsemicolon⟩
  | .print hkeyword h hsemicolon, hts, _, _, hfits, ht => by
    simp only [List.cons_append, without_cons, without_append] at hts
    cases ht with
    | print hvalue =>
      subst hvalue
      obtain ⟨us, hus, reads⟩ := respelt_of_reads h hts.2.1 hfits
      exact ⟨_, (hus.cons _).close _, .print hkeyword reads hsemicolon⟩
  | .returns hkeyword h hsemicolon, hts, _, _, hfits, ht => by
    simp only [List.cons_append, without_cons, without_append] at hts
    cases ht with
    | returns hvalue =>
      subst hvalue
      obtain ⟨us, hus, reads⟩ := respelt_of_optional h hts.2.1 hfits
      exact ⟨_, (hus.cons _).close _, .returns hkeyword reads hsemicolon⟩
  | .block hopening h hclosing, hts, _, _, hfits, ht => by
    simp only [List.cons_append, without_cons, without_append] at hts
    cases ht with
    | block ρ hρ hbody =>
      have body := respelt_of_declarations h hts.2.1 (hfits.cons hρ) hbody
      obtain ⟨us, hus, reads⟩ := body
      exact ⟨_, (hus.cons _).close _, .block hopening reads hclosing⟩
  | .ifThen hkeyword hopening hcondition hclosing hbranch, hts, _, _, hfits, ht => by
    simp only [List.cons_append, without_cons, without_append] at hts
    obtain ⟨_, _, htest, _, hrest⟩ := hts
    cases ht with
    | ifThen heq ht =>
      subst heq
      obtain ⟨us, hus, readsCondition⟩ := respelt_of_reads hcondition htest hfits
      obtain ⟨vs, hvs, readsBranch⟩ := respelt_of_statement hbranch hrest hfits ht
      exact ⟨_, ((hus.cons _).cons _).append (hvs.cons _),
        .ifThen hkeyword hopening readsCondition hclosing readsBranch⟩
  | .ifElse hkeyword hopening hcondition hclosing hthen helseKeyword helse, hts, _, _, hfits,
      ht => by
    simp only [List.cons_append, List.append_assoc, without_cons, without_append] at hts
    obtain ⟨_, _, htest, _, hfirst, _, hsecond⟩ := hts
    cases ht with
    | ifElse heq htThen htElse =>
      subst heq
      obtain ⟨us, hus, readsCondition⟩ := respelt_of_reads hcondition htest hfits
      obtain ⟨vs, hvs, readsThen⟩ := respelt_of_statement hthen hfirst hfits htThen
      obtain ⟨ws, hws, readsElse⟩ := respelt_of_statement helse hsecond hfits htElse
      exact ⟨_, (((hus.cons _).cons _).append (hvs.cons _)).append (hws.cons _),
        .ifElse hkeyword hopening readsCondition hclosing readsThen helseKeyword readsElse⟩
  | .whileLoop hkeyword hopening hcondition hclosing hbody, hts, _, _, hfits, ht => by
    simp only [List.cons_append, without_cons, without_append] at hts
    obtain ⟨_, _, htest, _, hrest⟩ := hts
    cases ht with
    | whileLoop heq ht =>
      subst heq
      obtain ⟨us, hus, readsCondition⟩ := respelt_of_reads hcondition htest hfits
      obtain ⟨vs, hvs, readsBody⟩ := respelt_of_statement hbody hrest hfits ht
      exact ⟨_, ((hus.cons _).cons _).append (hvs.cons _),
        .whileLoop hkeyword hopening readsCondition hclosing readsBody⟩
  | .forLoop hkeyword hopening hinitializer hcondition hsemicolon hstep hclosing hbody, hts, _, _,
      hfits, ht => by
    simp only [List.cons_append, List.append_assoc, without_cons, without_append] at hts
    obtain ⟨_, _, hfirst, htest, _, hround, _, hrest⟩ := hts
    -- the tree of a loop has blocks, so its parts may be inside of more renamings than it is
    obtain ⟨σs, τs, first', body', hσs, hτs, htFirst, htBody, rfl⟩ := respelt_forLoop hfits ht
    obtain ⟨us, hus, readsFirst⟩ := respelt_of_initializer hinitializer hfirst hσs htFirst
    obtain ⟨vs, hvs, readsCondition⟩ := respelt_of_optional hcondition htest hσs
    obtain ⟨ws, hws, readsStep⟩ := respelt_of_optional hstep hround hτs
    obtain ⟨xs, hxs, readsBody⟩ := respelt_of_statement hbody hrest hτs htBody
    exact ⟨_, ((((hus.cons _).cons _).append hvs).append (hws.cons _)).append (hxs.cons _),
      .forLoop hkeyword hopening readsFirst readsCondition hsemicolon readsStep hclosing readsBody⟩

theorem respelt_of_declaration {isOpen : Bool} {n n' : Nat} {ts : List Token} {t : Stmt} :
    ReadsDeclaration isOpen n ts t n' → Without s.new ts → ∀ {ρs : List Renaming} {t' : Stmt},
      s.FitsAll ρs → t.Respelt s ρs t' →
      ∃ ts', Retold s.new ts ts' ∧ ReadsDeclaration isOpen n ts' t' n'
  | .statement h, hts, _, _, hfits, ht => by
    obtain ⟨us, hus, reads⟩ := respelt_of_statement h hts hfits ht
    exact ⟨us, hus, .statement reads⟩
  | .varDecl hkeyword h, hts, _, _, hfits, ht => by
    obtain ⟨us, hus, reads⟩ := respelt_of_variable h (without_cons.mp hts).2 hfits ht
    exact ⟨_, hus.cons _, .varDecl hkeyword reads⟩
  | .funDecl hkeyword h, hts, _, _, hfits, ht => by
    cases ht with
    | funDecl _ ht =>
      obtain ⟨us, hus, reads⟩ := respelt_of_routine h (without_cons.mp hts).2 hfits ht
      exact ⟨_, hus.cons _, .funDecl hkeyword reads⟩
  | .classDecl hkeyword hname hopening h hclosing, hts, _, _, hfits, ht => by
    simp only [List.cons_append, without_cons, without_append] at hts
    obtain ⟨_, _, _, hrest, _⟩ := hts
    cases ht with
    | classDecl _ ht =>
      obtain ⟨us, hus, reads⟩ := respelt_of_routines h hrest (hfits.cons s.fits_same) ht
      exact ⟨_, (((hus.cons _).cons _).cons _).close _,
        .classDecl hkeyword hname hopening reads hclosing⟩

/-- A program whose names are called otherwise is spelled by the same tokens, but for some names that
are the new one instead. -/
theorem respelt_of_declarations {n n' : Nat} {ts : List Token} {body : List Stmt} :
    ReadsDeclarations n ts body n' → Without s.new ts →
      ∀ {ρs : List Renaming} {body' : List Stmt}, s.FitsAll ρs → Stmt.RespeltAll s ρs body body' →
      ∃ ts', Retold s.new ts ts' ∧ ReadsDeclarations n ts' body' n'
  | .nil, _, _, _, _, ht => by
    cases ht
    exact ⟨[], .nil, .nil⟩
  | .cons h hmore, hts, _, _, hfits, ht => by
    obtain ⟨hfirst, hrest⟩ := without_append.mp hts
    cases ht with
    | cons htFirst htMore =>
      obtain ⟨us, hus, readsFirst⟩ := respelt_of_declaration h hfirst hfits htFirst
      obtain ⟨vs, hvs, readsMore⟩ := respelt_of_declarations hmore hrest hfits htMore
      exact ⟨_, hus.append hvs, .cons readsFirst readsMore⟩

theorem respelt_of_routine {n n' : Nat} {ts : List Token} {f : FunctionDecl} :
    ReadsRoutine n ts f n' → Without s.new ts → ∀ {ρs : List Renaming} {f' : FunctionDecl},
      s.FitsAll ρs → f.Respelt s ρs f' →
      ∃ ts', Retold s.new ts ts' ∧ ReadsRoutine n ts' f' n'
  | .intro hname hopening hparams hclosing hleft h hright, hts, _, _, hfits, ht => by
    simp only [List.cons_append, List.append_assoc, without_cons, without_append] at hts
    obtain ⟨_, _, hbetween, _, _, hrest, _⟩ := hts
    cases ht with
    | intro ρ hρ heq hbody =>
      subst heq
      obtain ⟨us, hus, readsParams⟩ := respelt_of_parameters hρ hparams hbetween
      obtain ⟨vs, hvs, readsBody⟩ := respelt_of_declarations h hrest (hfits.cons hρ) hbody
      exact ⟨_, (((hus.cons _).cons _).append ((hvs.cons _).cons _)).close _,
        .intro hname hopening readsParams hclosing hleft readsBody hright⟩

theorem respelt_of_routines {n n' : Nat} {ts : List Token} {fs : List FunctionDecl} :
    ReadsRoutines n ts fs n' → Without s.new ts →
      ∀ {ρs : List Renaming} {fs' : List FunctionDecl}, s.FitsAll ρs →
      FunctionDecl.RespeltAll s ρs fs fs' →
      ∃ ts', Retold s.new ts ts' ∧ ReadsRoutines n ts' fs' n'
  | .nil, _, _, _, _, ht => by
    cases ht
    exact ⟨[], .nil, .nil⟩
  | .cons h hmore, hts, _, _, hfits, ht => by
    obtain ⟨hfirst, hrest⟩ := without_append.mp hts
    cases ht with
    | cons htFirst htMore =>
      obtain ⟨us, hus, readsFirst⟩ := respelt_of_routine h hfirst hfits htFirst
      obtain ⟨vs, hvs, readsMore⟩ := respelt_of_routines hmore hrest hfits htMore
      exact ⟨_, hus.append hvs, .cons readsFirst readsMore⟩

end

end

end Lox
