import Lox.Proofs.Parser.Foreign
import Lox.Proofs.Syntax.Acceptance

/-!
# Up to its first error, a parser reads the front of a phrase

A parser *follows* a phrase if what it takes without an error derives the phrase, and if the tokens in
front of its first error can be completed to the phrase. A phrase can always be completed, since there is
something that derives it (`exists_derives`). So sequences of parsers follow sequences of phrases, and the
parser of expressions follows the grammar rule by rule.

Two things are left out. A list that is too long is an error at an item that the grammar would accept but
for its number. And in front of an equals sign there can be an operand that is no target, which shows only
at the sign; the sources here have assignments to new variables alone (`Plain`).
-/

namespace Lox.Grammar

open Phrase

/-! ## Derivations of phrases -/

/-- The phrase that only the empty list of tokens derives. -/
def Phrase.nothing : Phrase := atMost 0 ident

theorem derives_nothing {ts : List Token} (h : Derives nothing ts) : ts = [] := by
  generalize hp : nothing = p at h
  cases h <;> first | rfl | cases hp

theorem Derives.of_seq {p q : Phrase} {ts : List Token} (h : Derives (p ++ q) ts) :
    ∃ us vs, ts = us ++ vs ∧ Derives p us ∧ Derives q vs := by
  generalize hr : p ++ q = r at h
  cases h with
  | seq hp hq =>
    cases hr
    exact ⟨_, _, rfl, hp, hq⟩
  | _ => cases hr

theorem Derives.of_optional {p : Phrase} {ts : List Token} (h : Derives (optional p) ts) :
    ts = [] ∨ Derives p ts := by
  cases h with
  | absent => exact .inl rfl
  | present h => exact .inr h

theorem Derives.atMost_succ {bound : Nat} {p : Phrase} {ts : List Token}
    (h : Derives (atMost bound p) ts) : Derives (atMost (bound + 1) p) ts := by
  generalize hq : atMost bound p = q at h
  induction h generalizing bound with
  | noneMore => exact .noneMore
  | oneMore hfirst _ _ ih =>
    cases hq
    exact .oneMore hfirst (ih rfl)
  | _ => cases hq

/-- Phrases one behind the other, in whatever brackets. -/
theorem derives_assoc {p q r : Phrase} {ts : List Token} :
    Derives (p ++ (q ++ r)) ts ↔ Derives (p ++ q ++ r) ts := by
  constructor
  · intro h
    obtain ⟨us, _, rfl, hp, h⟩ := h.of_seq
    obtain ⟨vs, ws, rfl, hq, hr⟩ := h.of_seq
    rw [← List.append_assoc]
    exact .seq (.seq hp hq) hr
  · intro h
    obtain ⟨_, ws, rfl, h, hr⟩ := h.of_seq
    obtain ⟨us, vs, rfl, hp, hq⟩ := h.of_seq
    rw [List.append_assoc]
    exact .seq hp (.seq hq hr)

/-- Some token for each terminal. -/
theorem exists_covered : ∀ t : Terminal, ∃ token : Token, t.Covers token.kind
  | .ident => ⟨⟨.identifier, "", 0⟩, rfl⟩
  | .number => ⟨⟨.number 0, "", 0⟩, _, rfl⟩
  | .string => ⟨⟨.string "", "", 0⟩, _, rfl⟩
  | .word keyword => ⟨⟨.keyword keyword, "", 0⟩, rfl⟩
  | .mark symbol => ⟨⟨.symbol symbol, "", 0⟩, rfl⟩

/-- A phrase can be derived if its rules can be. -/
theorem exists_derives_of_rules : ∀ φ : Phrase, (∀ name : Rule, ∃ ts, Derives (rule name) ts) →
    ∃ ts, Derives φ ts
  | .terminal t, _ =>
    let ⟨token, h⟩ := exists_covered t
    ⟨[token], .terminal h⟩
  | .rule name, h => h name
  | .seq p q, h =>
    let ⟨ts, hts⟩ := exists_derives_of_rules p h
    let ⟨us, hus⟩ := exists_derives_of_rules q h
    ⟨ts ++ us, .seq hts hus⟩
  | .either p _, h =>
    let ⟨ts, hts⟩ := exists_derives_of_rules p h
    ⟨ts, .left hts⟩
  | .optional _, _ => ⟨[], .absent⟩
  | .many _, _ => ⟨[], .noneOf⟩
  | .atMost _ _, _ => ⟨[], .noneMore⟩

/-- The rules that an operand derives alone. -/
def operandRules : List Rule :=
  [.expression, .assignment, .logicOr, .logicAnd, .equality, .comparison, .term, .factor, .unary, .call,
    .primary]

theorem derives_operand {ts : List Token} (primary : Derives (rule .primary) ts) :
    ∀ name ∈ operandRules, Derives (rule name) ts := by
  have call : Derives (rule .call) ts := .rule primary.append_many_nil
  have unary : Derives (rule .unary) ts := .rule (.right call)
  have factor : Derives (rule .factor) ts := .rule unary.append_many_nil
  have term : Derives (rule .term) ts := .rule factor.append_many_nil
  have comparison : Derives (rule .comparison) ts := .rule term.append_many_nil
  have equality : Derives (rule .equality) ts := .rule comparison.append_many_nil
  have logicAnd : Derives (rule .logicAnd) ts := .rule equality.append_many_nil
  have logicOr : Derives (rule .logicOr) ts := .rule logicAnd.append_many_nil
  have assignment : Derives (rule .assignment) ts := .rule (.right logicOr)
  simp only [operandRules, List.forall_mem_cons]
  exact ⟨.rule assignment, assignment, logicOr, logicAnd, equality, comparison, term, factor, unary, call,
    primary, List.forall_mem_nil _⟩

/-- There is something that derives each rule. -/
theorem exists_derives_rule (name : Rule) : ∃ ts, Derives (rule name) ts := by
  obtain ⟨semicolon, hsemicolon⟩ := exists_covered (.mark .semicolon)
  obtain ⟨opening, hopening⟩ := exists_covered (.mark .leftParen)
  obtain ⟨closing, hclosing⟩ := exists_covered (.mark .rightParen)
  obtain ⟨leftBrace, hleftBrace⟩ := exists_covered (.mark .leftBrace)
  obtain ⟨rightBrace, hrightBrace⟩ := exists_covered (.mark .rightBrace)
  obtain ⟨ident, hident⟩ := exists_covered .ident
  obtain ⟨constant, hconstant⟩ := exists_covered (.word .nilKw)
  have worded : ∀ keyword, ∃ token, Derives (word keyword) [token] := fun keyword =>
    (exists_covered (.word keyword)).imp fun _ h => .terminal h
  have literal : constant.kind.literal? = some .nil := by
    rw [hconstant]
    rfl
  -- `nil`, `nil;` and `{}` stand for any expression, statement and block
  have operand := derives_operand (derives_literal literal)
  have expression : Derives (rule .expression) [constant] := operand _ List.mem_cons_self
  have exprStmt : Derives (rule .exprStmt) [constant, semicolon] :=
    .rule (.seq expression (.terminal hsemicolon))
  have statement : Derives (rule .statement) [constant, semicolon] :=
    .rule (.left (.left (.left (.left (.left (.left exprStmt))))))
  have block : Derives (rule .block) [leftBrace, rightBrace] :=
    .rule (.seq (.seq (.terminal hleftBrace) .noneOf) (.terminal hrightBrace))
  have function : Derives (rule .function) [ident, opening, closing, leftBrace, rightBrace] :=
    .rule (.seq (.seq (.seq (.seq (.terminal hident) (.terminal hopening)) .absent)
      (.terminal hclosing)) block)
  have headed : ∀ {keyword token}, Derives (word keyword) [token] →
      Derives (word keyword ++ mark .leftParen ++ rule .expression ++ mark .rightParen)
        [token, opening, constant, closing] := fun htoken =>
    .seq (.seq (.seq htoken (.terminal hopening)) expression) (.terminal hclosing)
  cases name
  case program => exact ⟨_, .rule .noneOf⟩
  case declaration => exact ⟨_, .rule (.right statement)⟩
  case classDecl =>
    obtain ⟨keyword, hkeyword⟩ := worded .classKw
    exact ⟨_, .rule (.seq (.seq (.seq (.seq hkeyword (.terminal hident)) (.terminal hleftBrace)) .noneOf)
      (.terminal hrightBrace))⟩
  case funDecl =>
    obtain ⟨keyword, hkeyword⟩ := worded .funKw
    exact ⟨_, .rule (.seq hkeyword function)⟩
  case varDecl =>
    obtain ⟨keyword, hkeyword⟩ := worded .varKw
    exact ⟨_, .rule (.seq (.seq (.seq hkeyword (.terminal hident)) .absent) (.terminal hsemicolon))⟩
  case forStmt =>
    obtain ⟨keyword, hkeyword⟩ := worded .forKw
    exact ⟨_, .rule (.seq (.seq (.seq (.seq (.seq (.seq (.seq hkeyword (.terminal hopening))
      (.right (.terminal hsemicolon))) .absent) (.terminal hsemicolon)) .absent)
      (.terminal hclosing)) statement)⟩
  case ifStmt =>
    obtain ⟨keyword, hkeyword⟩ := worded .ifKw
    exact ⟨_, .rule (.seq (.seq (headed hkeyword) statement) .absent)⟩
  case printStmt =>
    obtain ⟨keyword, hkeyword⟩ := worded .printKw
    exact ⟨_, .rule (.seq (.seq hkeyword expression) (.terminal hsemicolon))⟩
  case returnStmt =>
    obtain ⟨keyword, hkeyword⟩ := worded .returnKw
    exact ⟨_, .rule (.seq (.seq hkeyword .absent) (.terminal hsemicolon))⟩
  case whileStmt =>
    obtain ⟨keyword, hkeyword⟩ := worded .whileKw
    exact ⟨_, .rule (.seq (headed hkeyword) statement)⟩
  case parameters => exact ⟨_, .rule (.seq (.terminal hident) .noneMore)⟩
  case arguments => exact ⟨_, .rule (.seq expression .noneMore)⟩
  case function => exact ⟨_, function⟩
  case statement => exact ⟨_, statement⟩
  case exprStmt => exact ⟨_, exprStmt⟩
  case block => exact ⟨_, block⟩
  all_goals exact ⟨_, operand _ (by simp [operandRules])⟩

/-- There is something that derives each phrase. -/
theorem exists_derives (φ : Phrase) : ∃ ts, Derives φ ts :=
  exists_derives_of_rules φ exists_derives_rule

end Lox.Grammar

namespace Lox

/-- An error about the number of parameters or of arguments. -/
def SyntaxError.IsLimit (e : SyntaxError) : Prop :=
  e.issue = .tooManyParameters ∨ e.issue = .tooManyArguments

/-- An equals sign behind another token stands behind a name, and that behind `var` or at the front. -/
def Plain (ts : List Token) : Prop :=
  ∀ before name equal after, ts = before ++ name :: equal :: after → equal.kind = .symbol .equal →
    name.kind = .identifier ∧ ∀ token ∈ before.getLast?, token.kind = .keyword .varKw

theorem Plain.suffix {ts us : List Token} (h : Plain ts) (hus : us <:+ ts) : Plain us := by
  obtain ⟨taken, rfl⟩ := hus
  intro before name equal after hus hequal
  obtain ⟨hname, hbefore⟩ := h (taken ++ before) name equal after (by rw [hus, List.append_assoc]) hequal
  refine ⟨hname, fun token htoken => hbefore token ?_⟩
  rw [List.getLast?_append, Option.mem_def.mp htoken]
  rfl

end Lox

namespace Lox.Parser

open Grammar Grammar.Phrase

variable {α β : Type}

/-! ## Following a phrase -/

/-- The error is noticed in front of these tokens. -/
structure Before (s : State) (vs : List Token) (e : SyntaxError) : Prop where
  remaining : e.remaining = vs.length
  token : e.token = vs.head?.getD s.ending

/-- What the run takes without an error derives the phrase, and what stands in front of its first error
can be completed to the phrase. -/
structure Follows (φ : Phrase) (p : Parser α) (s : State) : Prop where
  takes {a : α} {t : State} : Gives p s a t → ∃ us, s.rest = us ++ t.rest ∧ Derives φ us
  offends {e : SyntaxError} : e ∈ (noticed s (p s)).head? → ¬ e.IsLimit → e.IsExpectation ∧
    ∃ us vs ws, s.rest = us ++ vs ∧ Before s vs e ∧ Derives φ (us ++ ws)

/-- The parser follows the phrase, wherever it starts. -/
def Viable (φ : Phrase) (p : Parser α) : Prop := ∀ s : State, s.Ends → Plain s.rest → Follows φ p s

namespace Follows

variable {φ ψ : Phrase} {p q : Parser α} {f : α → Parser β} {s : State}

theorem mono (h : Follows φ p s) (hψ : ∀ {ts}, Derives φ ts → Derives ψ ts) : Follows ψ p s where
  takes hgives := (h.takes hgives).imp fun _ hus => ⟨hus.1, hψ hus.2⟩
  offends he hlimit := by
    obtain ⟨hexpected, us, vs, ws, hs, hbefore, hderives⟩ := h.offends he hlimit
    exact ⟨hexpected, us, vs, ws, hs, hbefore, hψ hderives⟩

theorem of_eq (h : Follows φ q s) (heq : p s = q s) : Follows φ p s where
  takes hgives := h.takes ⟨heq ▸ hgives.run, hgives.quiet⟩
  offends he := h.offends (heq ▸ he)

theorem bind [Forward p] [∀ a, Forward (f a)] (hp : Follows φ p s)
    (hf : ∀ {a t}, Gives p s a t → Follows ψ (f a) t) : Follows (φ ++ ψ) (p >>= f) s where
  takes hgives := by
    obtain ⟨a, t, hfirst, hsecond⟩ := bind_gives hgives
    obtain ⟨us, hus, hφ⟩ := hp.takes hfirst
    obtain ⟨vs, hvs, hψ⟩ := (hf hfirst).takes hsecond
    exact ⟨us ++ vs, by rw [hus, hvs, List.append_assoc], .seq hφ hψ⟩
  offends {e} he hlimit := by
    have first : e ∈ (noticed s (p s)).head? → e.IsExpectation ∧
        ∃ us vs ws, s.rest = us ++ vs ∧ Before s vs e ∧ Derives (φ ++ ψ) (us ++ ws) := fun he => by
      obtain ⟨hexpected, us, vs, ws, hs, hbefore, hφ⟩ := hp.offends he hlimit
      obtain ⟨more, hψ⟩ := exists_derives ψ
      refine ⟨hexpected, us, vs, ws ++ more, hs, hbefore, ?_⟩
      rw [← List.append_assoc]
      exact .seq hφ hψ
    cases hrun : p s with
    | error e' t =>
      rw [noticed_bind_error hrun] at he
      exact first he
    | ok a t =>
      rw [noticed_bind_ok hrun] at he
      cases hquiet : noticed s (p s) with
      | cons e' more =>
        rw [hquiet] at he
        exact first (by rw [hquiet]; exact he)
      | nil =>
        rw [hquiet, List.nil_append] at he
        have hgives := gives_of_quiet hquiet hrun
        obtain ⟨us, hus, hφ⟩ := hp.takes hgives
        obtain ⟨hexpected, us', vs, ws, ht, hbefore, hψ⟩ := (hf hgives).offends he hlimit
        refine ⟨hexpected, us ++ us', vs, ws, by rw [hus, ht, List.append_assoc],
          ⟨hbefore.remaining, ?_⟩, ?_⟩
        · rw [hbefore.token, (Forward.of_ok hrun).ending]
        · rw [List.append_assoc]
          exact .seq hφ hψ

/-- A run without errors follows what its tokens derive. -/
theorem of_gives {a : α} {t : State} (h : Gives p s a t) (us : List Token) (hs : s.rest = us ++ t.rest)
    (hus : Derives φ us) : Follows φ p s where
  takes h' := by
    have run := h.run.symm.trans h'.run
    cases run
    exact ⟨us, hs, hus⟩
  offends he := by
    rw [h.run, noticed_quiet h.quiet] at he
    nomatch he

theorem map [Forward p] (hp : Follows φ p s) (g : α → β) : Follows φ (g <$> p) s := by
  have mapped : Follows (φ ++ nothing) (p >>= fun a => Pure.pure (g a)) s :=
    hp.bind fun {a t} _ => of_gives (a := g a) ⟨rfl, rfl⟩ [] rfl .noneMore
  refine mapped.mono fun h => ?_
  obtain ⟨us, vs, rfl, hus, hvs⟩ := h.of_seq
  rwa [derives_nothing hvs, List.append_nil]

/-- Behind what takes nothing. -/
theorem behind [Forward p] [∀ a, Forward (f a)] (hp : Follows nothing p s)
    (hf : ∀ {a t}, Gives p s a t → Follows φ (f a) t) : Follows φ (p >>= f) s := by
  refine (hp.bind hf).mono fun h => ?_
  obtain ⟨us, vs, rfl, hus, hvs⟩ := h.of_seq
  rwa [derives_nothing hus]

/-- A run that takes the next token and goes on as another one. -/
theorem first {q : Parser α} {token : Token} {rest : List Token} (hs : s.rest = token :: rest)
    (hrun : p s = q { s with rest := rest }) (hq : Follows φ q { s with rest := rest })
    (hφ : ∀ {ts}, Derives φ ts → Derives ψ (token :: ts)) : Follows ψ p s where
  takes hgives := by
    obtain ⟨us, hus, hderives⟩ := hq.takes ⟨hrun ▸ hgives.run, hgives.quiet⟩
    exact ⟨token :: us, hs.trans (congrArg (token :: ·) hus), hφ hderives⟩
  offends he hlimit := by
    rw [hrun] at he
    obtain ⟨hexpected, us, vs, ws, hrest, hbefore, hderives⟩ := hq.offends he hlimit
    exact ⟨hexpected, token :: us, vs, ws, hs.trans (congrArg (token :: ·) hrest),
      ⟨hbefore.remaining, hbefore.token⟩, hφ hderives⟩

/-- A run that fails at once follows whatever the parser asks for. -/
theorem of_failure (what : Expectation) (h : p s = .error (s.error (.expected what)) s) : Follows φ p s where
  takes h' := nomatch h.symm.trans h'.run
  offends {e} he _ := by
    rw [h, noticed_error (List.append_nil _).symm] at he
    obtain rfl : s.error (.expected what) = e := Option.some.inj he
    obtain ⟨ws, hws⟩ := exists_derives φ
    exact ⟨⟨what, rfl⟩, [], s.rest, ws, rfl, ⟨rfl, rfl⟩, hws⟩

/-- A run of which the first error is about the number of items is no matter here. -/
theorem of_limit (h : ∃ e ∈ (noticed s (p s)).head?, e.IsLimit) : Follows φ p s where
  takes h' := by
    obtain ⟨e, he, -⟩ := h
    rw [h'.run, noticed_quiet h'.quiet] at he
    nomatch he
  offends he hlimit := by
    obtain ⟨e', he', hlimit'⟩ := h
    cases he.symm.trans he'
    exact absurd hlimit' hlimit

theorem limit_first [Forward p] [∀ a, Forward (f a)]
    (h : ∃ e ∈ (noticed s (p s)).head?, e.IsLimit) : ∃ e ∈ (noticed s ((p >>= f) s)).head?, e.IsLimit :=
  h.imp fun _ he => ⟨head_noticed_bind he.1, he.2⟩

end Follows

namespace Viable

variable {φ ψ χ : Phrase} {p q : Parser α} {f : α → Parser β}

theorem mono (h : Viable φ p) (hψ : ∀ {ts}, Derives φ ts → Derives ψ ts) : Viable ψ p :=
  fun s ends plain => (h s ends plain).mono hψ

theorem bind [Forward p] [∀ a, Forward (f a)] (hp : Viable φ p) (hf : ∀ a, Viable ψ (f a)) :
    Viable (φ ++ ψ) (p >>= f) := fun s ends plain =>
  (hp s ends plain).bind fun hgives =>
    hf _ _ (hgives.ends ends) (plain.suffix (Forward.of_ok hgives.run).rest)

theorem pure (h : Derives φ []) (a : α) : Viable φ (Pure.pure a : Parser α) := fun _ _ _ =>
  .of_gives (a := a) ⟨rfl, rfl⟩ [] rfl h

theorem map [Forward p] (hp : Viable φ p) (g : α → β) : Viable φ (g <$> p) :=
  fun s ends plain => (hp s ends plain).map g

theorem ite {c : Prop} [Decidable c] (hp : Viable φ p) (hq : Viable φ q) :
    Viable φ (if c then p else q) := by
  split
  · exact hp
  · exact hq

/-- What takes no token and notices nothing. -/
theorem still (h : ∀ s, ∃ a t, p s = .ok a t ∧ t.rest = s.rest ∧ t.errors = s.errors) :
    Viable nothing p := fun s _ _ => by
  obtain ⟨a, t, hrun, hrest, herrors⟩ := h s
  exact .of_gives ⟨hrun, herrors⟩ [] hrest.symm .noneMore

theorem behind [Forward p] [∀ a, Forward (f a)] (hp : Viable nothing p) (hf : ∀ a, Viable φ (f a)) :
    Viable φ (p >>= f) := by
  refine mono (hp.bind hf) fun h => ?_
  obtain ⟨us, vs, rfl, hus, hvs⟩ := h.of_seq
  rwa [derives_nothing hus]

theorem sees (kind : TokenKind) : Viable nothing (Parser.sees kind) :=
  still fun s => ⟨_, s, sees_run kind s, rfl, rfl⟩

theorem atEnd : Viable nothing Parser.atEnd := still fun s => ⟨_, s, atEnd_run s, rfl, rfl⟩

theorem here : Viable nothing Parser.here := still fun s => ⟨_, s, here_run s, rfl, rfl⟩

theorem freshId : Viable nothing Parser.freshId := still fun s => ⟨_, _, freshId_run s, rfl, rfl⟩

theorem fail (what : Expectation) : Viable φ (Parser.fail (.expected what) : Parser α) :=
  fun s _ _ => .of_failure what (fail_run _ s)

theorem expect {t : Terminal} {kind : TokenKind} (what : Expectation)
    (ht : ∀ token : Token, token.kind = kind → t.Covers token.kind) :
    Viable (.terminal t) (Parser.expect kind what) := fun s _ _ => by
  cases hsees : s.sees kind with
  | true =>
    obtain ⟨token, rest, hs, hkind⟩ := exists_of_sees hsees
    exact .of_gives ⟨expect_take what hs hkind, rfl⟩ [token] hs (.terminal (ht token hkind))
  | false =>
    refine .of_failure what ?_
    rw [expect_run, hsees]
    rfl

theorem expectMark (symbol : Symbol) (place : MarkPlace) :
    Viable (mark symbol) (Parser.expectMark symbol place) :=
  expect (t := .mark symbol) _ fun _ h => h

theorem name (what : Expectation) : Viable ident (Parser.expect .identifier what) :=
  expect (t := .ident) _ fun _ h => h

/-- A token that decides how to go on. -/
theorem accept {kind : TokenKind} [Forward p] (hp : Viable φ p) (hq : Viable ψ q)
    (hφ : ∀ {token : Token} {ts}, token.kind = kind → Derives φ ts → Derives ψ (token :: ts)) :
    Viable ψ (Parser.accept kind >>= fun taken => if taken then p else q) := fun s ends plain => by
  cases hsees : s.sees kind with
  | false =>
    refine (hq s ends plain).of_eq ?_
    rw [bind_ok (accept_leave (notNext_of_sees hsees)), if_neg Bool.false_ne_true]
  | true =>
    obtain ⟨token, rest, hs, hkind⟩ := exists_of_sees hsees
    have next := hp { s with rest := rest } ends (plain.suffix (hs ▸ List.suffix_cons token rest))
    refine .first hs ?_ next (hφ hkind)
    rw [bind_ok (accept_take hs hkind), if_pos rfl]

/-! ### Loops -/

/-- A step that may decline, and what is behind it. -/
theorem option {x : Parser β} {f : α → Parser β} (hx : Viable φ x) (hf : ∀ a, Viable φ (f a))
    (o : Option α) : Viable φ (match o with | none => x | some a => f a) := by
  cases o with
  | none => exact hx
  | some a => exact hf a

theorem iterate {step : α → Parser (Option α)} [∀ a, Forward (step a)]
    (h : ∀ a, Viable (optional φ) (step a)) (a : α) : Viable (many φ) (Parser.iterate step a) := by
  have along : ∀ (left : List Token) a, Viable (many φ) (iterateAlong step left a) := by
    intro left
    induction left with
    | nil => exact fun a => pure .noneOf a
    | cons _ left ih =>
      intro a
      have onward := forward_option (x := Pure.pure a) (f := iterateAlong step left) inferInstance
        inferInstance
      unfold iterateAlong
      refine mono (φ := optional φ ++ many φ) ((h a).bind (option (pure .noneOf a) ih)) fun h => ?_
      obtain ⟨us, vs, rfl, hus, hvs⟩ := h.of_seq
      obtain rfl | hus := hus.of_optional
      · exact hvs
      · exact .oneOf hus hvs
  exact fun s ends plain => (along s.rest a s ends plain).of_eq rfl

theorem collect {step : Nat → Parser (Option α)} [∀ i, Forward (step i)]
    (h : ∀ i, Viable (optional φ) (step i)) : Viable (many φ) (Parser.collect step) := by
  have along : ∀ (left : List Token) i, Viable (many φ) (collectAlong step left i) := by
    intro left
    induction left with
    | nil => exact fun i => pure .noneOf []
    | cons _ left ih =>
      intro i
      have onward := forward_option (x := Pure.pure [])
        (f := fun a => do return a :: (← collectAlong step left (i + 1))) inferInstance inferInstance
      unfold collectAlong
      refine mono (φ := optional φ ++ many φ) ((h i).bind (option (pure .noneOf []) fun a =>
        (ih (i + 1)).map (a :: ·))) fun h => ?_
      obtain ⟨us, vs, rfl, hus, hvs⟩ := h.of_seq
      obtain rfl | hus := hus.of_optional
      · exact hvs
      · exact .oneOf hus hvs
  exact fun s ends plain => (along s.rest 0 s ends plain).of_eq rfl

/-! ### Lists with commas -/

theorem noticed_report (issue : SyntaxIssue) (s : State) :
    noticed s (report issue s) = [s.error issue] :=
  noticed_ok rfl

/-- An item beyond the limit is an error in itself. -/
theorem numbered_over {issue : SyntaxIssue} (hissue : issue = .tooManyParameters ∨ issue = .tooManyArguments)
    {item : Parser α} [Forward item] {index : Nat} (hindex : maxArguments ≤ index) (s : State) :
    ∃ e ∈ (noticed s (numbered issue item index s)).head?, e.IsLimit := by
  have run : numbered issue item index s = (report issue >>= fun _ => item) s := by
    unfold numbered
    dsimp only
    rw [if_pos hindex]
  refine ⟨s.error issue, ?_, hissue⟩
  rw [run, noticed_bind_ok (report_run issue s), noticed_report]
  rfl

theorem numbered {issue : SyntaxIssue} {item : Parser α} {index : Nat} (hindex : index < maxArguments)
    (h : Viable φ item) : Viable φ (Parser.numbered issue item index) := by
  unfold Parser.numbered
  dsimp only
  rwa [if_neg (Nat.not_le.mpr hindex)]

/-- Where there is no room for a further item, a comma leads to an error. -/
theorem no_room {issue : SyntaxIssue} (hissue : issue = .tooManyParameters ∨ issue = .tooManyArguments)
    (item : Parser α) [Forward item] {index : Nat} (hindex : maxArguments ≤ index + 1)
    {f : Option α → Parser (List α)} [∀ o, Forward (f o)] (hf : f none = Pure.pure []) :
    Viable (atMost 0 φ) (commaStep issue item index >>= f) := by
  intro s ends plain
  cases hsees : s.sees (.symbol .comma) with
  | false =>
    refine (pure (φ := atMost 0 φ) .noneMore [] s ends plain).of_eq ?_
    rw [bind_ok (commaStep_leave issue item index (notNext_of_sees hsees)), hf]
  | true =>
    obtain ⟨comma, rest, hs, hkind⟩ := exists_of_sees hsees
    refine .of_limit (Follows.limit_first ?_)
    rw [commaStep_take issue item index hs hkind]
    exact Follows.limit_first (s := { s with rest := rest }) (numbered_over hissue hindex _)

/-- Items with commas before them, as many as there is room for. -/
theorem behindItem {issue : SyntaxIssue} (hissue : issue = .tooManyParameters ∨ issue = .tooManyArguments)
    {item : Parser α} [Forward item] (h : Viable φ item) :
    Viable (atMost (maxArguments - 1) (mark .comma ++ φ)) (Parser.behindItem issue item) := by
  have along : ∀ (left : List Token) {room index}, index + room = maxArguments - 1 →
      Viable (atMost room (mark .comma ++ φ)) (collectAlong (commaStep issue item) left index) := by
    intro left
    induction left with
    | nil => exact fun _ => pure .noneMore []
    | cons _ left ih =>
      intro room index hroom
      have onward := forward_option (x := Pure.pure [])
        (f := fun a => do return a :: (← collectAlong (commaStep issue item) left (index + 1)))
        inferInstance inferInstance
      unfold collectAlong
      cases room with
      | zero =>
        have hindex : maxArguments ≤ index + 1 := by
          rw [Nat.add_zero] at hroom
          rw [hroom]
          decide
        exact no_room hissue item hindex rfl
      | succ room =>
        have hindex : index + 1 < maxArguments := by
          rw [show maxArguments = 8 from rfl] at hroom ⊢
          omega
        have step : Viable (optional (mark .comma ++ φ)) (commaStep issue item index) :=
          accept ((numbered hindex h).map some) (pure .absent none) fun hkind hφ =>
            .present (.seq (derives_mark hkind) hφ)
        have later : ∀ a, Viable (atMost room (mark .comma ++ φ))
            (do return a :: (← collectAlong (commaStep issue item) left (index + 1))) := fun a =>
          (ih (by omega)).map (a :: ·)
        refine mono (φ := optional (mark .comma ++ φ) ++ atMost room (mark .comma ++ φ))
          (step.bind (option (pure .noneMore []) later)) fun h => ?_
        obtain ⟨us, vs, rfl, hus, hvs⟩ := h.of_seq
        obtain rfl | hus := hus.of_optional
        · exact hvs.atMost_succ
        · exact .oneMore hus hvs
  exact fun s ends plain => (along s.rest (Nat.zero_add _) s ends plain).of_eq rfl

theorem listed {issue : SyntaxIssue} (hissue : issue = .tooManyParameters ∨ issue = .tooManyArguments)
    {item : Parser α} [Forward item] (h : Viable φ item) :
    Viable (optional (Phrase.listed φ)) (Parser.listed issue item) := by
  refine (sees _).behind fun closed => ite (pure .absent []) ?_
  rw [commaSeparated_eq]
  have items : Viable (φ ++ atMost (maxArguments - 1) (mark .comma ++ φ)) (do
      let first ← Parser.numbered issue item 0
      let more ← Parser.behindItem issue item
      return first :: more) :=
    (numbered (by decide) h).bind fun first => (behindItem hissue h).map (first :: ·)
  exact items.mono .present

end Viable

/-! ## Expressions -/

/-- The next token is taken. -/
theorem follows_skip {s : State} (ends : s.Ends) {t : Terminal} (ht : t.Covers s.here.kind) :
    Follows (.terminal t) skip s := by
  have hkind : s.here.kind ≠ .eof := fun heof => by
    rw [heof] at ht
    cases t <;> simp [Terminal.Covers] at ht
  refine .of_gives (a := ()) ⟨skip_run s, rfl⟩ [s.here] ?_ (.terminal ht)
  cases hs : s.rest with
  | nil =>
    rw [State.here, hs] at hkind
    exact absurd ends hkind
  | cons token rest => rw [here_cons hs]; rfl

section

variable {e : Parser Expr} [Forward e] (he : Viable (rule .expression) e)

include he

theorem viable_primary : Viable (rule .primary) (primary e) := by
  intro s ends plain
  have leaf : ∀ (terminal : Terminal) {t : State} {tree}, t.Ends → terminal.Covers t.here.kind →
      (∀ {ts}, Derives (.terminal terminal) ts → Derives Rule.primary.phrase ts) →
      Follows (rule .primary) (leaf tree) t := fun _ _ _ ends hcovers hprimary =>
    (((follows_skip ends hcovers).map _).of_eq (q := (fun _ => _) <$> skip) rfl).mono fun h =>
      .rule (hprimary h)
  have named : ∀ (terminal : Terminal) {tree : OccurrenceId → Expr}, terminal.Covers s.here.kind →
      (∀ {ts}, Derives (.terminal terminal) ts → Derives Rule.primary.phrase ts) →
      Follows (rule .primary) (do Parser.leaf (tree (← freshId))) s := fun terminal _ hcovers hprimary =>
    (Viable.freshId s ends plain).behind fun {id t} hgives => by
      have run := hgives.run
      cases run
      exact leaf terminal (t := { s with nextId := s.nextId + 1 }) ends hcovers hprimary
  refine Follows.of_eq ?_ (bind_ok (here_run s))
  split
  · next hkind =>
    exact leaf (.word .falseKw) ends hkind fun h =>
      .left (.left (.left (.left (.right h))))
  · next hkind =>
    exact leaf (.word .trueKw) ends hkind fun h =>
      .left (.left (.left (.left (.left (.right h)))))
  · next hkind =>
    exact leaf (.word .nilKw) ends hkind fun h =>
      .left (.left (.left (.right h)))
  · next hkind =>
    exact leaf .number ends ⟨_, hkind⟩ fun h =>
      .left (.left (.left (.left (.left (.left (.left h))))))
  · next hkind =>
    exact leaf .string ends ⟨_, hkind⟩ fun h =>
      .left (.left (.left (.left (.left (.left (.right h))))))
  · next hkind => exact named (.word .thisKw) hkind fun h => .left (.left (.right h))
  · next hkind => exact named .ident hkind fun h => .left (.right h)
  · next hkind =>
    have inside : Viable (rule .expression ++ mark .rightParen) (do
        let inner ← e
        let _ ← expectMark .rightParen .afterGroup
        return Expr.grouping inner) := he.bind fun inner => (Viable.expectMark _ _).map _
    refine ((follows_skip ends (t := .mark .leftParen) hkind).bind fun {_ t} hgives =>
      inside t (hgives.ends ends) (plain.suffix (Forward.of_ok hgives.run).rest)).mono fun h => ?_
    exact .rule (.right (derives_assoc.mp h))
  · exact Viable.fail _ s ends plain

theorem viable_applied : Viable (rule .call) (applied e) := by
  have step : ∀ callee, Viable (optional
      (mark .leftParen ++ optional (rule .arguments) ++ mark .rightParen ||| mark .dot ++ ident))
      (application e callee) := fun callee => by
    have call : Viable (optional (Phrase.listed (rule .expression)) ++ mark .rightParen) (do
        let arguments ← listed .tooManyArguments e
        let paren ← expectMark .rightParen .afterArguments
        return some (Expr.call callee paren arguments)) :=
      (Viable.listed (.inr rfl) he).bind fun arguments => (Viable.expectMark _ _).map _
    have get : Viable ident (do
        let name ← expect .identifier .propertyName
        return some (Expr.get callee name)) := (Viable.name _).map _
    refine .accept call (.accept get (.pure .absent none) fun hkind h => ?_) fun hkind h => ?_
    · exact .present (.right (.seq (derives_mark hkind) h))
    · obtain ⟨us, vs, rfl, hus, hvs⟩ := h.of_seq
      have arguments : Derives (optional (rule .arguments)) us := by
        obtain rfl | hus := hus.of_optional
        · exact .absent
        · exact .present (.rule hus)
      exact .present (.left (.seq (.seq (derives_mark hkind) arguments) hvs))
  exact ((viable_primary he).bind fun first => .iterate step first).mono fun h => .rule h

theorem viable_prefixed : Viable (rule .unary) (prefixed e) := by
  have operators : Viable (many (mark .bang ||| mark .minus)) (acceptWhile isPrefixOperator) :=
    fun s ends plain => by
      refine .of_gives ⟨acceptWhile_run _ s, rfl⟩ _ List.takeWhile_append_dropWhile.symm ?_
      have all : ∀ token ∈ s.rest.takeWhile isPrefixOperator, isPrefixOperator token = true :=
        fun _ h => List.mem_takeWhile_imp h
      revert all
      generalize s.rest.takeWhile isPrefixOperator = signs
      intro all
      induction signs with
      | nil => exact .noneOf
      | cons sign more ih =>
        obtain ⟨first, more⟩ := List.forall_mem_cons.mp all
        exact .oneOf (derives_sign first) (ih more)
  refine (operators.bind fun signs => (viable_applied he).map _).mono fun h => ?_
  obtain ⟨us, vs, rfl, hus, hvs⟩ := h.of_seq
  clear h
  generalize hp : many (mark .bang ||| mark .minus) = p at hus
  induction hus with
  | noneOf => exact .rule (.right hvs)
  | oneOf hfirst _ _ ih =>
    cases hp
    rw [List.append_assoc]
    exact .rule (.left (.seq hfirst (ih rfl)))
  | _ => cases hp

theorem viable_climb {tiers : List Tier} {name : Rule} (level : Level tiers name) :
    Viable (rule name) (climb (prefixed e) tiers) := by
  induction level with
  | unary => exact viable_prefixed he
  | @tier tier tighter operand operators name hphrase hchoices _ _ ih =>
    have step : ∀ left, Viable (optional (operators ++ rule operand))
        (tier.extend (climb (prefixed e) tighter) left) := fun left s ends plain => by
      unfold Tier.extend
      by_cases hnext : ∃ token rest, s.rest = token :: rest ∧ tier.operators.contains token.kind = true
      · obtain ⟨token, rest, hs, htoken⟩ := hnext
        have right := (ih.map fun right => some (tier.node left token right)) { s with rest := rest } ends
          (plain.suffix (hs ▸ List.suffix_cons token rest))
        refine .first hs (bind_ok (acceptIf_take _ hs htoken)) right fun h => .present ?_
        exact .seq (.of_choices hchoices (List.contains_iff_mem.mp htoken)) h
      · refine Follows.of_eq (q := pure none) (Viable.pure .absent none s ends plain) ?_
        rw [bind_ok (acceptIf_leave _ fun token htoken => ?_)]
        obtain ⟨rest, hs⟩ := List.head?_eq_some_iff.mp htoken
        exact Bool.eq_false_iff.mpr fun htest => hnext ⟨token, rest, hs, htest⟩
    refine Viable.mono (φ := rule operand ++ many (operators ++ rule operand))
      (ih.bind fun first => .iterate step first) fun h => .rule ?_
    rw [hphrase]
    exact h

omit [Forward e] he in
/-- A name alone is read as a variable. -/
theorem climb_name {s : State} {name : Token} {rest : List Token} (hs : s.rest = name :: rest)
    (hname : name.kind = .identifier) (hrest : Stops tiers rest) :
    climb (prefixed e) tiers s =
      .ok (.var s.nextId name) { s with rest := rest, nextId := s.nextId + 1 } := by
  have nothing : TakesBelow e 1 := fun h hlength => by
    obtain ⟨token, us, rfl, -⟩ := reads_head h
    exact absurd hlength (by simp)
  have reads : ReadsExpr (.climb tiers) s.nextId [name] (.var s.nextId name) (s.nextId + 1) :=
    .operand (.operand (.operand (.operand (.operand (.operand
      (.prefixed (.applied (.primary (.var hname)))))))))
  exact climb_takes nothing tiers_apart reads (Nat.le_refl 1) hrest hs rfl

/-- In front of an equals sign stands a single name. -/
theorem assigned_name (foreigners : ∀ s, Spares e s) {s t : State} (ends : s.Ends) (plain : Plain s.rest)
    {target : Expr} (hgives : Gives (climb (prefixed e) tiers) s target t) {equal : Token}
    {rest : List Token} (ht : t.rest = equal :: rest) (hequal : equal.kind = .symbol .equal) :
    ∃ name, s.rest = name :: equal :: rest ∧ name.kind = .identifier ∧
      target = .var s.nextId name ∧ t = { s with rest := equal :: rest, nextId := s.nextId + 1 } := by
  obtain ⟨us, hus, hderives⟩ := (viable_climb he level_tiers s ends plain).takes hgives
  obtain ⟨tree, n', hreads⟩ := derives_spells meaning_closed hderives 0
  obtain ⟨taken, htaken, hnone⟩ := spares_climb foreigners tiers (by decide) s
  rw [hgives.run] at htaken
  have htaken : s.rest = taken ++ t.rest := htaken
  obtain rfl : us = taken := List.append_cancel_right (hus.symm.trans htaken)
  -- the last token in front of the sign is a name, and it is the first one
  obtain ⟨before, name, rfl⟩ : ∃ before name, us = before ++ [name] := by
    obtain ⟨token, us, rfl, -⟩ := reads_head hreads
    exact ⟨_, _, (List.dropLast_append_getLast (List.cons_ne_nil token us)).symm⟩
  rw [ht, List.append_assoc] at hus
  obtain ⟨hname, hbefore⟩ := plain before name equal rest hus hequal
  have alone : before = [] := by
    refine List.getLast?_eq_none_iff.mp (Option.eq_none_iff_forall_ne_some.mpr fun token htoken => ?_)
    refine hnone token (List.mem_append_left _ (List.mem_of_getLast? htoken)) ?_
    rw [hbefore token htoken]
    decide
  subst alone
  have stop : Stops tiers (equal :: rest) := by
    rintro _ ⟨⟩
    rw [hequal]
    decide
  have run := hgives.run.symm.trans (climb_name hus hname stop)
  cases run
  exact ⟨name, hus, hname, rfl, rfl⟩

theorem viable_assignment (foreigners : ∀ s, Spares e s) : Viable (rule .expression) (assignment e) := by
  intro s ends plain
  by_cases hassigned : ∃ target t, Gives (climb (prefixed e) tiers) s target t ∧
      ∃ equal rest, t.rest = equal :: rest ∧ equal.kind = .symbol .equal
  · obtain ⟨target, t, hgives, equal, rest, ht, hequal⟩ := hassigned
    obtain ⟨name, hs, hname, rfl, rfl⟩ := assigned_name he foreigners ends plain hgives ht hequal
    have named : Follows ident (climb (prefixed e) tiers) s :=
      .of_gives hgives [name] hs (derives_ident hname)
    have valued : ∀ (error : SyntaxError), Viable (rule .expression ++ Phrase.nothing) (do
        let value ← e
        assignmentTo (.var s.nextId name) error value) := fun error =>
      he.bind fun value => Viable.freshId.behind fun id => .pure .noneMore _
    refine (named.bind (ψ := mark .equal ++ (rule .expression ++ Phrase.nothing))
      fun {target' t'} hgives' => ?_).mono fun h => ?_
    · cases hgives.run.symm.trans hgives'.run
      let before : State := { s with rest := equal :: rest, nextId := s.nextId + 1 }
      refine Follows.first ht ?_
        (valued (before.error .invalidTarget) { s with rest := rest, nextId := s.nextId + 1 } ends
        (plain.suffix ⟨[name, equal], hs.symm⟩)) fun h => .seq (derives_mark hequal) h
      rw [bind_ok (get_run _), bind_ok (accept_take ht hequal)]
      rfl
    · obtain ⟨us, _, rfl, hus, h⟩ := h.of_seq
      obtain ⟨vs, _, rfl, hvs, h⟩ := h.of_seq
      obtain ⟨ws, xs, rfl, hws, hxs⟩ := h.of_seq
      rw [derives_nothing hxs, List.append_nil, ← List.append_assoc]
      have target : Derives Phrase.target us := by
        have alone := Derives.seq (.absent (p := rule .call ++ mark .dot)) hus
        exact alone
      exact .rule (.rule (.left (.seq (.seq target hvs) hws.of_rule)))
  · refine ((viable_climb he level_tiers s ends plain).bind (ψ := Phrase.nothing)
      fun {target t} hgives => ?_).mono fun h => ?_
    · refine .of_gives (a := target) (t := t) ⟨?_, rfl⟩ [] rfl .noneMore
      have next : NotNext (.symbol .equal) t.rest := fun token htoken hkind => by
        obtain ⟨rest, ht⟩ := List.head?_eq_some_iff.mp htoken
        exact hassigned ⟨target, t, hgives, token, rest, ht, hkind⟩
      rw [bind_ok (get_run t), bind_ok (accept_leave next)]
      rfl
    · obtain ⟨us, vs, rfl, hus, hvs⟩ := h.of_seq
      rw [derives_nothing hvs, List.append_nil]
      exact .rule (.rule (.right hus))

end

theorem viable_expression : Viable (rule .expression) expression := by
  have upTo : ∀ depth, Viable (rule .expression) (expressionUpTo depth) := by
    intro depth
    induction depth with
    | zero => exact .fail _
    | succ depth ih => exact viable_assignment ih (spares_expressionUpTo depth)
  exact fun s ends plain => (upTo (s.rest.length + 1) s ends plain).of_eq rfl

end Lox.Parser
