import Lox.Proofs.Parser.Program
import Lox.Proofs.Syntax.Grammar

/-!
# What derives from the grammar spells a tree

The documented grammar says which sources are programs, and `ReadsDeclarations` says which trees they
spell. Each rule has a meaning in terms of trees, and the rules do not lead out of these meanings
(`meaning_closed`). So what is derived spells a tree, but not one of the shape of its derivation: an
`else` that a derivation gives to an outer condition goes to the innermost one that can have it
(`attach_else`).
-/

namespace Lox.Grammar

open Phrase Lox.Parser

/-! ## Meanings -/

/-- However the occurrences are numbered, the tokens spell something. -/
def Readable {α : Type} (R : Nat → List Token → α → Nat → Prop) (ts : List Token) : Prop :=
  ∀ n, ∃ a n', R n ts a n'

/-- The tokens spell a statement, which may be open. -/
def ReadableStatement (ts : List Token) : Prop :=
  ∀ n, ∃ isOpen t n', ReadsStatement isOpen n ts t n'

/-- The tokens spell a declaration, which may be an open statement. -/
def ReadableDeclaration (ts : List Token) : Prop :=
  ∀ n, ∃ isOpen t n', ReadsDeclaration isOpen n ts t n'

/-- An `else` behind an open statement goes to the innermost condition without one. -/
theorem attach_else {keyword : Token} (hkeyword : keyword.kind = .keyword .elseKw)
    {vs : List Token} (hvs : ReadableStatement vs) {isOpen : Bool} {n n' : Nat} {us : List Token}
    {t : Stmt} : ReadsStatement isOpen n us t n' → isOpen = true →
      ∃ isOpen t' m, ReadsStatement isOpen n (us ++ keyword :: vs) t' m
  | .expression .., h | .print .., h | .returns .., h | .block .., h => nomatch h
  | .ifThen hif hopening hcondition hclosing hthen, _ => by
    rename_i branchOpen _ _ _
    obtain hopen | hclosed := Bool.eq_false_or_eq_true branchOpen
    · obtain ⟨isOpen, t', m, h⟩ := attach_else hkeyword hvs hthen hopen
      have attached := ReadsStatement.ifThen hif hopening hcondition hclosing h
      exact ⟨true, _, m, by simpa using attached⟩
    · rw [hclosed] at hthen
      obtain ⟨isOpen, t', m, helse⟩ := hvs n'
      exact ⟨isOpen, _, m, .ifElse hif hopening hcondition hclosing hthen hkeyword helse⟩
  | .ifElse hif hopening hcondition hclosing hthen helseKeyword helse, hopen => by
    obtain ⟨isOpen, t', m, h⟩ := attach_else hkeyword hvs helse hopen
    have attached := ReadsStatement.ifElse hif hopening hcondition hclosing hthen helseKeyword h
    exact ⟨isOpen, _, m, by simpa using attached⟩
  | .whileLoop hwhile hopening hcondition hclosing hbody, hopen => by
    obtain ⟨isOpen, t', m, h⟩ := attach_else hkeyword hvs hbody hopen
    have attached := ReadsStatement.whileLoop hwhile hopening hcondition hclosing h
    exact ⟨isOpen, _, m, by simpa using attached⟩
  | .forLoop hfor hopening hfirst hcondition hsemicolon hstep hclosing hbody, hopen => by
    obtain ⟨isOpen, t', m, h⟩ := attach_else hkeyword hvs hbody hopen
    have attached :=
      ReadsStatement.forLoop hfor hopening hfirst hcondition hsemicolon hstep hclosing h
    exact ⟨isOpen, _, m, by simpa using attached⟩

/-- What the tokens of a rule spell. -/
def Meaning : Rule → List Token → Prop
  | .program => Readable ReadsDeclarations
  | .declaration | .classDecl | .funDecl => ReadableDeclaration
  | .function => Readable ReadsRoutine
  | .varDecl => fun ts => ∃ keyword us, ts = keyword :: us ∧ keyword.kind = .keyword .varKw ∧
      Readable ReadsVariable us
  | .statement | .forStmt | .ifStmt | .printStmt | .returnStmt | .whileStmt => ReadableStatement
  | .exprStmt => fun ts => ∃ us semicolon, ts = us ++ [semicolon] ∧
      Readable (ReadsExpr .whole) us ∧ semicolon.kind = .symbol .semicolon
  | .block => fun ts => ∃ opening us closing, ts = opening :: us ++ [closing] ∧
      opening.kind = .symbol .leftBrace ∧ Readable ReadsDeclarations us ∧
      closing.kind = .symbol .rightBrace
  | .parameters => fun ts => ∃ names, ReadsParameters ts names
  | .expression | .assignment => Readable (ReadsExpr .whole)
  | .logicOr => Readable (ReadsExpr (.climb tiers))
  | .logicAnd => Readable (ReadsExpr (.climb (tiers.drop 1)))
  | .equality => Readable (ReadsExpr (.climb (tiers.drop 2)))
  | .comparison => Readable (ReadsExpr (.climb (tiers.drop 3)))
  | .term => Readable (ReadsExpr (.climb (tiers.drop 4)))
  | .factor => Readable (ReadsExpr (.climb (tiers.drop 5)))
  | .unary => Readable (ReadsExpr .prefixed)
  | .call => Readable (ReadsExpr .applied)
  | .arguments => Readable ReadsArguments
  | .primary => Readable (ReadsExpr .primary)

/-- Operands with operators of a tier between them spell a tree that leans to the left. -/
theorem readable_operands {tier : Tier} {tighter : List Tier} {operand : Rule} {operators : Phrase}
    (hoperand : ∀ {ts}, Meaning operand ts → Readable (ReadsExpr (.climb tighter)) ts)
    (hoperators : operators.choices = some tier.operators) {ts : List Token}
    (h : (operands operand operators).Spells Meaning ts) :
    Readable (ReadsExpr (.climb (tier :: tighter))) ts := by
  obtain ⟨us, _, rfl, hfirst, parts, rfl, hparts⟩ := h
  intro n
  obtain ⟨left, n₁, hleft⟩ := hoperand hfirst n
  replace hleft : ReadsExpr (.climb (tier :: tighter)) n us left n₁ := .operand hleft
  clear hfirst
  induction parts generalizing us left n₁ with
  | nil => exact ⟨left, n₁, by simpa using hleft⟩
  | cons part parts ih =>
    obtain ⟨hpart, hbehind⟩ := List.forall_mem_cons.mp hparts
    obtain ⟨_, vs, rfl, hoperator, hright⟩ := hpart
    obtain ⟨operator, rfl, hmem⟩ := spells_choices hoperators hoperator
    obtain ⟨right, n₂, hright⟩ := hoperand hright n₁
    obtain ⟨e, n₃, h⟩ := ih _ hbehind _ _
      (.operator hleft (List.contains_iff_mem.mpr hmem) hright)
    exact ⟨e, n₃, by simpa using h⟩

/-- Items with commas between them, of which there are not too many. -/
theorem readable_items {ts : List Token} (h : (listed (rule .expression)).Spells Meaning ts) :
    Readable ReadsArguments ts := by
  obtain ⟨us, _, rfl, hfirst, parts, rfl, hlength, hparts⟩ := h
  have items : ∀ n, ∃ es n', ReadsItems n (us ++ parts.flatten) es n' ∧
      es.length = parts.length + 1 := by
    clear hlength
    induction parts generalizing us with
    | nil =>
      intro n
      obtain ⟨e, n', h⟩ := hfirst n
      exact ⟨[e], n', by simpa using ReadsItems.last h, rfl⟩
    | cons part parts ih =>
      intro n
      obtain ⟨hpart, hbehind⟩ := List.forall_mem_cons.mp hparts
      obtain ⟨_, vs, rfl, ⟨comma, rfl, hcomma⟩, hsecond⟩ := hpart
      obtain ⟨e, n₁, h⟩ := hfirst n
      obtain ⟨es, n₂, hmore, hlength⟩ := ih vs hsecond hbehind n₁
      refine ⟨e :: es, n₂, ?_, by rw [List.length_cons, List.length_cons, hlength]⟩
      simpa using ReadsItems.more h hcomma hmore
  intro n
  obtain ⟨es, n', h, hes⟩ := items n
  refine ⟨es, n', .some h ?_⟩
  rw [hes]
  exact Nat.succ_le_succ hlength

theorem readable_names {ts : List Token} (h : (listed ident).Spells Meaning ts) :
    ∃ names, ReadsParameters ts names := by
  obtain ⟨_, _, rfl, ⟨name, rfl, hname⟩, parts, rfl, hlength, hparts⟩ := h
  have items : ∃ names, ReadsNames ([name] ++ parts.flatten) names ∧
      names.length = parts.length + 1 := by
    clear hlength
    induction parts generalizing name with
    | nil => exact ⟨[name], .last hname, rfl⟩
    | cons part parts ih =>
      obtain ⟨hpart, hbehind⟩ := List.forall_mem_cons.mp hparts
      obtain ⟨_, _, rfl, ⟨comma, rfl, hcomma⟩, other, rfl, hother⟩ := hpart
      obtain ⟨names, hmore, hlength⟩ := ih other hother hbehind
      refine ⟨name :: names, ?_, by rw [List.length_cons, List.length_cons, hlength]⟩
      simpa using ReadsNames.more hname hcomma hmore
  obtain ⟨names, h, hnames⟩ := items
  refine ⟨names, .some h ?_⟩
  rw [hnames]
  exact Nat.succ_le_succ hlength

/-- Calls and properties behind an operand. -/
theorem readable_call {us : List Token} (hfirst : Meaning .primary us)
    {parts : List (List Token)}
    (hparts : ∀ part ∈ parts, Phrase.Spells Meaning
      (mark .leftParen ++ optional (rule .arguments) ++ mark .rightParen ||| mark .dot ++ ident)
      part) : Readable (ReadsExpr .applied) (us ++ parts.flatten) := by
  intro n
  obtain ⟨callee, n₁, hcallee⟩ := hfirst n
  replace hcallee : ReadsExpr .applied n us callee n₁ := .primary hcallee
  clear hfirst
  induction parts generalizing us callee n₁ with
  | nil => exact ⟨callee, n₁, by simpa using hcallee⟩
  | cons part parts ih =>
    obtain ⟨hpart, hbehind⟩ := List.forall_mem_cons.mp hparts
    obtain ⟨_, _, rfl, ⟨_, vs, rfl, ⟨opening, rfl, hopening⟩, harguments⟩, closing, rfl, hclosing⟩ |
      ⟨_, _, rfl, ⟨dot, rfl, hdot⟩, name, rfl, hname⟩ := hpart
    · obtain ⟨es, n₂, hes⟩ : ∃ es n₂, ReadsArguments n₁ vs es n₂ := by
        obtain rfl | harguments := harguments
        · exact ⟨[], n₁, .none⟩
        · exact harguments n₁
      obtain ⟨e, n₃, h⟩ := ih hbehind _ _ (.call hcallee hopening hes hclosing)
      exact ⟨e, n₃, by simpa using h⟩
    · obtain ⟨e, n₃, h⟩ := ih hbehind _ _ (.get hcallee hdot hname)
      exact ⟨e, n₃, by simpa using h⟩

theorem readable_declarations {parts : List (List Token)}
    (h : ∀ part ∈ parts, ReadableDeclaration part) :
    Readable ReadsDeclarations parts.flatten := by
  induction parts with
  | nil => exact fun n => ⟨[], n, .nil⟩
  | cons part parts ih =>
    obtain ⟨hpart, hbehind⟩ := List.forall_mem_cons.mp h
    intro n
    obtain ⟨isOpen, t, n₁, hfirst⟩ := hpart n
    obtain ⟨body, n₂, hmore⟩ := ih hbehind n₁
    exact ⟨t :: body, n₂, .cons hfirst hmore⟩

theorem readable_routines {parts : List (List Token)}
    (h : ∀ part ∈ parts, Readable ReadsRoutine part) : Readable ReadsRoutines parts.flatten := by
  induction parts with
  | nil => exact fun n => ⟨[], n, .nil⟩
  | cons part parts ih =>
    obtain ⟨hpart, hbehind⟩ := List.forall_mem_cons.mp h
    intro n
    obtain ⟨f, n₁, hfirst⟩ := hpart n
    obtain ⟨methods, n₂, hmore⟩ := ih hbehind n₁
    exact ⟨f :: methods, n₂, .cons hfirst hmore⟩

theorem readable_optional {ts : List Token}
    (h : (optional (rule .expression)).Spells Meaning ts) : Readable ReadsOptional ts := by
  intro n
  obtain rfl | h := h
  · exact ⟨none, n, .none⟩
  · obtain ⟨e, n', h⟩ := h n
    exact ⟨some e, n', .some h⟩

/-- An operand of a rule is one of the rule that it comes from. -/
theorem readable_mono {rule rule' : ExprRule} {ts : List Token}
    (h : ∀ {n e n'}, ReadsExpr rule n ts e n' → ReadsExpr rule' n ts e n')
    (hreads : Readable (ReadsExpr rule) ts) : Readable (ReadsExpr rule') ts := fun n =>
  let ⟨e, n', hreads⟩ := hreads n
  ⟨e, n', h hreads⟩

/-- A target is read as an operand. -/
theorem readable_target {us : List Token} (h : target.Spells Meaning us) (n : Nat) :
    (∃ id name n', ReadsExpr (.climb tiers) n us (.var id name) n') ∨
      ∃ object name n', ReadsExpr (.climb tiers) n us (.get object name) n' := by
  have lift : ∀ {e n'}, ReadsExpr .applied n us e n' → ReadsExpr (.climb tiers) n us e n' :=
    fun h => .operand (.operand (.operand (.operand (.operand (.operand (.prefixed (.applied h)))))))
  obtain ⟨_, _, rfl, rfl | ⟨vs, _, rfl, hobject, dot, rfl, hdot⟩, name, rfl, hname⟩ := h
  · exact .inl ⟨n, name, n + 1, lift (.primary (.var hname))⟩
  · obtain ⟨object, n₁, hobject⟩ := hobject n
    have hget := ReadsExpr.get hobject hdot hname
    exact .inr ⟨object, name, n₁, lift (by simpa using hget)⟩

/-- The rules for expressions stand for what spells an expression. -/
theorem readable_assignment {ts : List Token} (h : Rule.assignment.phrase.Spells Meaning ts) :
    Readable (ReadsExpr .whole) ts := by
  obtain ⟨_, vs, rfl, ⟨us, _, rfl, htarget, equal, rfl, hequal⟩, hvalue⟩ | h := h
  · intro n
    obtain ⟨id, name, n₁, h⟩ | ⟨object, name, n₁, h⟩ := readable_target htarget n
    · obtain ⟨value, n₂, hvalue⟩ := hvalue n₁
      have assigned := ReadsExpr.assign h hequal hvalue
      exact ⟨_, _, by simpa using assigned⟩
    · obtain ⟨value, n₂, hvalue⟩ := hvalue n₁
      have assigned := ReadsExpr.set h hequal hvalue
      exact ⟨_, _, by simpa using assigned⟩
  · exact readable_mono .loosest h

theorem readable_primary {ts : List Token} (h : Rule.primary.phrase.Spells Meaning ts) :
    Readable (ReadsExpr .primary) ts := by
  have literal : ∀ {token : Token} {value}, token.kind.literal? = some value →
      Readable (ReadsExpr .primary) [token] := fun h n => ⟨_, n, .literal h⟩
  obtain ((((((⟨token, rfl, _, hkind⟩ | ⟨token, rfl, _, hkind⟩) | ⟨token, rfl, hkind⟩) |
    ⟨token, rfl, hkind⟩) | ⟨token, rfl, hkind⟩) | ⟨token, rfl, hkind⟩) | ⟨token, rfl, hkind⟩) |
    ⟨_, _, rfl, ⟨_, us, rfl, ⟨opening, rfl, hopening⟩, hinner⟩, closing, rfl, hclosing⟩ := h
  · exact literal (by rw [hkind]; rfl)
  · exact literal (by rw [hkind]; rfl)
  · exact literal (by rw [hkind]; rfl)
  · exact literal (by rw [hkind]; rfl)
  · exact literal (by rw [hkind]; rfl)
  · exact fun n => ⟨_, _, .this hkind⟩
  · exact fun n => ⟨_, _, .var hkind⟩
  · intro n
    obtain ⟨inner, n', hinner⟩ := hinner n
    exact ⟨_, _, .grouping hopening hinner hclosing⟩

theorem readable_unary {ts : List Token} (h : Rule.unary.phrase.Spells Meaning ts) :
    Readable (ReadsExpr .prefixed) ts := by
  obtain ⟨sign, us, rfl, hoperator, h⟩ | h := h
  · have operator : ∃ token, sign = [token] ∧ isPrefixOperator token = true := by
      obtain ⟨token, rfl, hkind⟩ | ⟨token, rfl, hkind⟩ := hoperator <;>
        exact ⟨token, rfl, by rw [isPrefixOperator, hkind]; rfl⟩
    obtain ⟨token, rfl, htoken⟩ := operator
    intro n
    obtain ⟨e, n', h⟩ := h n
    exact ⟨_, _, .unary htoken h⟩
  · exact readable_mono .applied h

/-- The rules for statements stand for what spells a statement. -/
theorem readable_if {ts : List Token} (h : Rule.ifStmt.phrase.Spells Meaning ts) :
    ReadableStatement ts := by
  obtain ⟨_, _, rfl, ⟨_, us, rfl, ⟨_, _, rfl, ⟨_, vs, rfl, ⟨_, _, rfl, ⟨keyword, rfl, hkeyword⟩,
    opening, rfl, hopening⟩, hcondition⟩, closing, rfl, hclosing⟩, hthen⟩, helse⟩ := h
  have without : ∀ n, ∃ t n', ReadsStatement true n (keyword :: opening :: vs ++ closing :: us) t n' := by
    intro n
    obtain ⟨condition, n₁, hcondition⟩ := hcondition n
    obtain ⟨isOpen, thenBranch, n₂, hthen⟩ := hthen n₁
    exact ⟨_, _, .ifThen hkeyword hopening hcondition hclosing hthen⟩
  intro n
  obtain ⟨t, n', h⟩ := without n
  obtain rfl | ⟨_, ws, rfl, ⟨elseKeyword, rfl, helseKeyword⟩, helse⟩ := helse
  · exact ⟨true, t, n', by simpa using h⟩
  · obtain ⟨isOpen, t', m, h⟩ := attach_else helseKeyword helse h rfl
    exact ⟨isOpen, t', m, by simpa using h⟩

theorem readable_while {ts : List Token} (h : Rule.whileStmt.phrase.Spells Meaning ts) :
    ReadableStatement ts := by
  obtain ⟨_, us, rfl, ⟨_, _, rfl, ⟨_, vs, rfl, ⟨_, _, rfl, ⟨keyword, rfl, hkeyword⟩,
    opening, rfl, hopening⟩, hcondition⟩, closing, rfl, hclosing⟩, hbody⟩ := h
  intro n
  obtain ⟨condition, n₁, hcondition⟩ := hcondition n
  obtain ⟨isOpen, body, n₂, hbody⟩ := hbody n₁
  have loop := ReadsStatement.whileLoop hkeyword hopening hcondition hclosing hbody
  exact ⟨isOpen, _, n₂, by simpa using loop⟩

/-- The first clause of a loop with its semicolon, which may be all there is of it. -/
theorem readable_initializer {ts : List Token}
    (h : (rule .varDecl ||| rule .exprStmt ||| mark .semicolon).Spells Meaning ts) :
    Readable ReadsInitializer ts := by
  intro n
  obtain (⟨keyword, us, rfl, hkeyword, hvariable⟩ | ⟨us, semicolon, rfl, hreads, hsemicolon⟩) |
    ⟨semicolon, rfl, hsemicolon⟩ := h
  · obtain ⟨t, n', h⟩ := hvariable n
    exact ⟨some t, n', .varDecl hkeyword h⟩
  · obtain ⟨e, n', h⟩ := hreads n
    exact ⟨_, n', .expression h hsemicolon⟩
  · exact ⟨none, n, .none hsemicolon⟩

theorem readable_for {ts : List Token} (h : Rule.forStmt.phrase.Spells Meaning ts) :
    ReadableStatement ts := by
  obtain ⟨_, ws, rfl, ⟨_, _, rfl, ⟨_, vs, rfl, ⟨_, _, rfl, ⟨_, us, rfl, ⟨_, xs, rfl,
    ⟨_, _, rfl, ⟨keyword, rfl, hkeyword⟩, opening, rfl, hopening⟩, hfirst⟩, hcondition⟩,
    semicolon, rfl, hsemicolon⟩, hstep⟩, closing, rfl, hclosing⟩, hbody⟩ := h
  intro n
  obtain ⟨first, n₁, hfirst⟩ := readable_initializer hfirst n
  obtain ⟨condition, n₂, hcondition⟩ := readable_optional hcondition n₁
  obtain ⟨step, n₃, hstep⟩ := readable_optional hstep n₂
  obtain ⟨isOpen, body, n₄, hbody⟩ := hbody n₃
  have loop := ReadsStatement.forLoop hkeyword hopening hfirst hcondition hsemicolon hstep hclosing
    hbody
  exact ⟨isOpen, _, n₄, by simpa using loop⟩

/-- A statement that ends with a semicolon or a brace is not open. -/
theorem readable_closed {ts : List Token}
    (h : ∀ n, ∃ t n', ReadsStatement false n ts t n') : ReadableStatement ts := fun n =>
  let ⟨t, n', h⟩ := h n
  ⟨false, t, n', h⟩

theorem readable_statement {ts : List Token} (h : Rule.statement.phrase.Spells Meaning ts) :
    ReadableStatement ts := by
  obtain (((((⟨us, semicolon, rfl, hreads, hsemicolon⟩ | h) | h) | h) | h) | h) |
    ⟨opening, us, closing, rfl, hopening, hbody, hclosing⟩ := h
  · refine readable_closed fun n => ?_
    obtain ⟨e, n', h⟩ := hreads n
    exact ⟨_, n', .expression h hsemicolon⟩
  · exact h
  · exact h
  · exact h
  · exact h
  · exact h
  · refine readable_closed fun n => ?_
    obtain ⟨body, n', h⟩ := hbody n
    exact ⟨_, n', .block hopening h hclosing⟩

theorem readable_function {ts : List Token} (h : Rule.function.phrase.Spells Meaning ts) :
    Readable ReadsRoutine ts := by
  obtain ⟨_, _, rfl, ⟨_, _, rfl, ⟨_, us, rfl, ⟨_, _, rfl, ⟨name, rfl, hname⟩, opening, rfl,
    hopening⟩, hparams⟩, closing, rfl, hclosing⟩, leftBrace, vs, rightBrace, rfl, hleftBrace, hbody,
    hrightBrace⟩ := h
  have params : ∃ names, ReadsParameters us names := by
    obtain rfl | h := hparams
    · exact ⟨[], .none⟩
    · exact h
  obtain ⟨names, params⟩ := params
  intro n
  obtain ⟨body, n', hbody⟩ := hbody n
  have routine := ReadsRoutine.intro hname hopening params hclosing hleftBrace hbody hrightBrace
  exact ⟨_, n', by simpa using routine⟩

theorem readable_class {ts : List Token} (h : Rule.classDecl.phrase.Spells Meaning ts) :
    ReadableDeclaration ts := by
  obtain ⟨_, _, rfl, ⟨_, _, rfl, ⟨_, _, rfl, ⟨_, _, rfl, ⟨keyword, rfl, hkeyword⟩, name, rfl,
    hname⟩, opening, rfl, hopening⟩, parts, rfl, hmethods⟩, closing, rfl, hclosing⟩ := h
  intro n
  obtain ⟨methods, n', hmethods⟩ := readable_routines hmethods n
  have declared := ReadsDeclaration.classDecl hkeyword hname hopening hmethods hclosing
  exact ⟨false, _, n', by simpa using declared⟩

theorem readable_declaration {ts : List Token} (h : Rule.declaration.phrase.Spells Meaning ts) :
    ReadableDeclaration ts := by
  obtain ((h | h) | ⟨keyword, us, rfl, hkeyword, hvariable⟩) | h := h
  · exact h
  · exact h
  · intro n
    obtain ⟨t, n', h⟩ := hvariable n
    exact ⟨false, t, n', .varDecl hkeyword h⟩
  · intro n
    obtain ⟨isOpen, t, n', h⟩ := h n
    exact ⟨isOpen, t, n', .statement h⟩

theorem readable_var {ts : List Token} (h : Rule.varDecl.phrase.Spells Meaning ts) :
    Meaning .varDecl ts := by
  obtain ⟨_, _, rfl, ⟨_, _, rfl, ⟨_, _, rfl, ⟨keyword, rfl, hkeyword⟩, name, rfl, hname⟩, hvalue⟩,
    semicolon, rfl, hsemicolon⟩ := h
  obtain rfl | ⟨_, us, rfl, ⟨equal, rfl, hequal⟩, hvalue⟩ := hvalue
  · exact ⟨keyword, [name, semicolon], rfl, hkeyword, fun n => ⟨_, n, .bare hname hsemicolon⟩⟩
  · refine ⟨keyword, name :: equal :: us ++ [semicolon], by simp, hkeyword, fun n => ?_⟩
    obtain ⟨e, n', h⟩ := hvalue n
    exact ⟨_, n', .initialized hname hequal h hsemicolon⟩

/-- The rules do not lead out of what spells a tree. -/
theorem meaning_closed (name : Rule) (ts : List Token) (h : name.phrase.Spells Meaning ts) :
    Meaning name ts := by
  cases name with
  | program =>
    obtain ⟨parts, rfl, hparts⟩ := h
    exact readable_declarations hparts
  | declaration => exact readable_declaration h
  | classDecl => exact readable_class h
  | funDecl =>
    obtain ⟨_, us, rfl, ⟨keyword, rfl, hkeyword⟩, hroutine⟩ := h
    intro n
    obtain ⟨f, n', h⟩ := hroutine n
    exact ⟨false, _, n', .funDecl hkeyword h⟩
  | function => exact readable_function h
  | varDecl => exact readable_var h
  | statement => exact readable_statement h
  | exprStmt =>
    obtain ⟨us, _, rfl, hreads, semicolon, rfl, hsemicolon⟩ := h
    exact ⟨us, semicolon, rfl, hreads, hsemicolon⟩
  | forStmt => exact readable_for h
  | ifStmt => exact readable_if h
  | printStmt =>
    obtain ⟨_, _, rfl, ⟨_, us, rfl, ⟨keyword, rfl, hkeyword⟩, hreads⟩, semicolon, rfl,
      hsemicolon⟩ := h
    refine readable_closed fun n => ?_
    obtain ⟨e, n', h⟩ := hreads n
    exact ⟨_, n', .print hkeyword h hsemicolon⟩
  | returnStmt =>
    obtain ⟨_, _, rfl, ⟨_, us, rfl, ⟨keyword, rfl, hkeyword⟩, hvalue⟩, semicolon, rfl,
      hsemicolon⟩ := h
    refine readable_closed fun n => ?_
    obtain ⟨value, n', h⟩ := readable_optional hvalue n
    exact ⟨_, n', .returns hkeyword h hsemicolon⟩
  | whileStmt => exact readable_while h
  | block =>
    obtain ⟨_, _, rfl, ⟨_, _, rfl, ⟨opening, rfl, hopening⟩, parts, rfl, hparts⟩, closing, rfl,
      hclosing⟩ := h
    exact ⟨opening, parts.flatten, closing, rfl, hopening, readable_declarations hparts, hclosing⟩
  | parameters => exact readable_names h
  | expression => exact h
  | assignment => exact readable_assignment h
  | logicOr => exact readable_operands id rfl h
  | logicAnd => exact readable_operands id rfl h
  | equality => exact readable_operands id rfl h
  | comparison => exact readable_operands id rfl h
  | term => exact readable_operands id rfl h
  | factor =>
    exact readable_operands (fun hoperand : Meaning .unary _ => readable_mono .prefixed hoperand) rfl h
  | unary => exact readable_unary h
  | call =>
    obtain ⟨us, _, rfl, hfirst, parts, rfl, hparts⟩ := h
    exact readable_call hfirst hparts
  | arguments => exact readable_items h
  | primary => exact readable_primary h

end Lox.Grammar
