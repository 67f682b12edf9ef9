import Lox.Proofs.Parser.Relabeling
import Lox.Proofs.Syntax.Canonical
import Lox.Proofs.Syntax.Numbering

/-!
# Readings with other identities and lines

What tokens spell does not depend on where the numbering of occurrences begins nor on the lines of the
tokens: relabeled tokens spell the relabeled tree, for each kind of tree that a statement is made of. The
parser says so for whole sources, and a part is a source of its own.

A relabeling shows in a tree only at the occurrences that the tree has (`Stmt.relabel_congr`).
-/

namespace Lox

open Lox.Parser Lox.Grammar

/-! ## Relabelings that agree on a tree -/

section

variable {r r' : Relabeling}

/-- The two relabelings do the same to an occurrence. -/
def Relabeling.AgreesAt (r r' : Relabeling) (o : Occurrence) : Prop := r.id o.id = r'.id o.id

theorem Relabeling.token_congr (hline : r.line = r'.line) (token : Token) :
    r.token token = r'.token token := by
  simp only [Relabeling.token, hline]

mutual

/-- Only the identities that occur in an expression count. -/
theorem Expr.relabel_congr (hline : r.line = r'.line) : (e : Expr) →
    (∀ o ∈ e.occurrences, r.AgreesAt r' o) → e.relabel r = e.relabel r'
  | .literal _, _ => rfl
  | .grouping inner, h => congrArg Expr.grouping (inner.relabel_congr hline h)
  | .unary operator operand, h => by
    rw [Expr.relabel, Expr.relabel, Relabeling.token_congr hline, operand.relabel_congr hline h]
  | .binary left operator right, h | .logical left operator right, h => by
    obtain ⟨hleft, hright⟩ := List.forall_mem_append.mp h
    rw [Expr.relabel, Expr.relabel, Relabeling.token_congr hline, left.relabel_congr hline hleft,
      right.relabel_congr hline hright]
  | .var id name, h | .this id name, h => by
    have same : r.id id = r'.id id := h _ (List.mem_singleton_self _)
    rw [Expr.relabel, Expr.relabel, Relabeling.token_congr hline, same]
  | .assign id name value, h => by
    obtain ⟨same, hvalue⟩ := List.forall_mem_cons.mp h
    rw [Expr.relabel, Expr.relabel, Relabeling.token_congr hline, value.relabel_congr hline hvalue]
    exact congrArg (Expr.assign · _ _) same
  | .call callee paren arguments, h => by
    obtain ⟨hcallee, harguments⟩ := List.forall_mem_append.mp h
    rw [Expr.relabel, Expr.relabel, Relabeling.token_congr hline, callee.relabel_congr hline hcallee,
      Expr.relabelAll_congr hline arguments harguments]
  | .get object name, h => by
    rw [Expr.relabel, Expr.relabel, Relabeling.token_congr hline, object.relabel_congr hline h]
  | .set object name value, h => by
    obtain ⟨hobject, hvalue⟩ := List.forall_mem_append.mp h
    rw [Expr.relabel, Expr.relabel, Relabeling.token_congr hline, object.relabel_congr hline hobject,
      value.relabel_congr hline hvalue]

theorem Expr.relabelAll_congr (hline : r.line = r'.line) : (es : List Expr) →
    (∀ o ∈ Expr.occurrencesIn es, r.AgreesAt r' o) → Expr.relabelAll r es = Expr.relabelAll r' es
  | [], _ => rfl
  | first :: more, h => by
    obtain ⟨hfirst, hmore⟩ := List.forall_mem_append.mp h
    rw [Expr.relabelAll, Expr.relabelAll, first.relabel_congr hline hfirst,
      Expr.relabelAll_congr hline more hmore]

end

theorem Expr.relabelIfAny_congr (hline : r.line = r'.line) (value : Option Expr)
    (h : ∀ o ∈ Expr.occurrencesOf value, r.AgreesAt r' o) :
    value.map (Expr.relabel r) = value.map (Expr.relabel r') := by
  cases value with
  | none => rfl
  | some value => exact congrArg some (value.relabel_congr hline h)

mutual

/-- Only the identities that occur in a statement count. -/
theorem Stmt.relabel_congr (hline : r.line = r'.line) : (t : Stmt) →
    (∀ o ∈ t.occurrences, r.AgreesAt r' o) → t.relabel r = t.relabel r'
  | .expression value, h => congrArg Stmt.expression (value.relabel_congr hline h)
  | .print value, h => congrArg Stmt.print (value.relabel_congr hline h)
  | .varDecl name value, h => by
    rw [Stmt.occurrences_varDecl] at h
    rw [Stmt.relabel, Stmt.relabel, Relabeling.token_congr hline,
      Expr.relabelIfAny_congr hline value h]
  | .block body, h => congrArg Stmt.block (Stmt.relabelAll_congr hline body h)
  | .ifThen condition thenBranch, h => by
    obtain ⟨hcondition, hthen⟩ := List.forall_mem_append.mp h
    rw [Stmt.relabel, Stmt.relabel, condition.relabel_congr hline hcondition,
      thenBranch.relabel_congr hline hthen]
  | .ifElse condition thenBranch elseBranch, h => by
    obtain ⟨h, helse⟩ := List.forall_mem_append.mp h
    obtain ⟨hcondition, hthen⟩ := List.forall_mem_append.mp h
    rw [Stmt.relabel, Stmt.relabel, condition.relabel_congr hline hcondition,
      thenBranch.relabel_congr hline hthen, elseBranch.relabel_congr hline helse]
  | .whileLoop condition body, h => by
    obtain ⟨hcondition, hbody⟩ := List.forall_mem_append.mp h
    rw [Stmt.relabel, Stmt.relabel, condition.relabel_congr hline hcondition,
      body.relabel_congr hline hbody]
  | .funDecl declaration, h => congrArg Stmt.funDecl (declaration.relabel_congr hline h)
  | .returns keyword value, h => by
    rw [Stmt.occurrences_returns] at h
    rw [Stmt.relabel, Stmt.relabel, Relabeling.token_congr hline,
      Expr.relabelIfAny_congr hline value h]
  | .classDecl name methods, h => by
    rw [Stmt.relabel, Stmt.relabel, Relabeling.token_congr hline,
      FunctionDecl.relabelAll_congr hline methods h]

theorem FunctionDecl.relabel_congr (hline : r.line = r'.line) : (f : FunctionDecl) →
    (∀ o ∈ f.occurrences, r.AgreesAt r' o) → f.relabel r = f.relabel r'
  | ⟨name, params, body⟩, h => by
    have same : r.token = r'.token := funext (Relabeling.token_congr hline)
    rw [FunctionDecl.relabel, FunctionDecl.relabel, same, Stmt.relabelAll_congr hline body h]

theorem Stmt.relabelAll_congr (hline : r.line = r'.line) : (body : List Stmt) →
    (∀ o ∈ Stmt.occurrencesIn body, r.AgreesAt r' o) →
      Stmt.relabelAll r body = Stmt.relabelAll r' body
  | [], _ => rfl
  | first :: more, h => by
    obtain ⟨hfirst, hmore⟩ := List.forall_mem_append.mp h
    rw [Stmt.relabelAll, Stmt.relabelAll, first.relabel_congr hline hfirst,
      Stmt.relabelAll_congr hline more hmore]

theorem FunctionDecl.relabelAll_congr (hline : r.line = r'.line) : (fs : List FunctionDecl) →
    (∀ o ∈ FunctionDecl.occurrencesIn fs, r.AgreesAt r' o) →
      FunctionDecl.relabelAll r fs = FunctionDecl.relabelAll r' fs
  | [], _ => rfl
  | first :: more, h => by
    obtain ⟨hfirst, hmore⟩ := List.forall_mem_append.mp h
    rw [FunctionDecl.relabelAll, FunctionDecl.relabelAll, first.relabel_congr hline hfirst,
      FunctionDecl.relabelAll_congr hline more hmore]

end

end

/-! ## Occurrences in a relabeled tree -/

/-- An occurrence with another identity and on another line. -/
def Relabeling.occurrence (r : Relabeling) (o : Occurrence) : Occurrence :=
  ⟨o.role, r.id o.id, r.token o.token⟩

section

variable (r : Relabeling)

mutual

@[simp] theorem Expr.occurrences_relabel : (e : Expr) →
    (e.relabel r).occurrences = e.occurrences.map r.occurrence
  | .literal _ | .var .. | .this .. => rfl
  | .grouping inner => inner.occurrences_relabel
  | .unary _ operand => operand.occurrences_relabel
  | .binary left _ right | .logical left _ right => by
    simp [Expr.relabel, Expr.occurrences, left.occurrences_relabel, right.occurrences_relabel]
  | .assign _ _ value => congrArg (_ :: ·) value.occurrences_relabel
  | .call callee _ arguments => by
    simp [Expr.relabel, Expr.occurrences, callee.occurrences_relabel,
      Expr.occurrencesIn_relabelAll arguments]
  | .get object _ => object.occurrences_relabel
  | .set object _ value => by
    simp [Expr.relabel, Expr.occurrences, object.occurrences_relabel, value.occurrences_relabel]

theorem Expr.occurrencesIn_relabelAll : (es : List Expr) →
    Expr.occurrencesIn (Expr.relabelAll r es) = (Expr.occurrencesIn es).map r.occurrence
  | [] => rfl
  | first :: more => by
    simp [Expr.relabelAll, Expr.occurrencesIn, first.occurrences_relabel,
      Expr.occurrencesIn_relabelAll more]

end

mutual

@[simp] theorem Stmt.occurrences_relabel : (t : Stmt) →
    (t.relabel r).occurrences = t.occurrences.map r.occurrence
  | .expression value | .print value => value.occurrences_relabel r
  | .varDecl _ value | .returns _ value => by
    cases value with
    | none => rfl
    | some value => exact value.occurrences_relabel r
  | .block body => Stmt.occurrencesIn_relabelAll body
  | .ifThen condition thenBranch => by
    simp [Stmt.relabel, Stmt.occurrences, thenBranch.occurrences_relabel]
  | .ifElse condition thenBranch elseBranch => by
    simp [Stmt.relabel, Stmt.occurrences, thenBranch.occurrences_relabel,
      elseBranch.occurrences_relabel]
  | .whileLoop condition body => by
    simp [Stmt.relabel, Stmt.occurrences, body.occurrences_relabel]
  | .funDecl declaration => declaration.occurrences_relabel
  | .classDecl _ methods => FunctionDecl.occurrencesIn_relabelAll methods

theorem FunctionDecl.occurrences_relabel : (f : FunctionDecl) →
    (f.relabel r).occurrences = f.occurrences.map r.occurrence
  | ⟨_, _, body⟩ => Stmt.occurrencesIn_relabelAll body

theorem Stmt.occurrencesIn_relabelAll : (body : List Stmt) →
    Stmt.occurrencesIn (Stmt.relabelAll r body) = (Stmt.occurrencesIn body).map r.occurrence
  | [] => rfl
  | first :: more => by
    simp [Stmt.relabelAll, Stmt.occurrencesIn, first.occurrences_relabel,
      Stmt.occurrencesIn_relabelAll more]

theorem FunctionDecl.occurrencesIn_relabelAll : (fs : List FunctionDecl) →
    FunctionDecl.occurrencesIn (FunctionDecl.relabelAll r fs) =
      (FunctionDecl.occurrencesIn fs).map r.occurrence
  | [] => rfl
  | first :: more => by
    simp [FunctionDecl.relabelAll, FunctionDecl.occurrencesIn, first.occurrences_relabel,
      FunctionDecl.occurrencesIn_relabelAll more]

end

end

/-! ## Parts of a source as sources of their own -/

/-- Tokens that derive something, with an end behind them. -/
theorem takeWhile_append_eof {p : Phrase} {ts : List Token} (h : Derives p ts) :
    (ts ++ [Token.eof 1]).takeWhile (·.kind != TokenKind.eof) = ts := by
  have words : ∀ token ∈ ts, (token.kind != TokenKind.eof) = true :=
    fun token hmem => bne_iff_ne.mpr (derives_ne_eof h token hmem)
  rw [List.takeWhile_append_of_pos words]
  exact List.append_nil ts

section

variable {r : Relabeling} {n n' : Nat} {ts : List Token}

theorem exists_eof_append (ts : List Token) :
    ∃ token ∈ ts ++ [Token.eof 1], token.kind = .eof :=
  ⟨Token.eof 1, List.mem_append_right _ (List.mem_singleton_self _), rfl⟩

theorem takeWhile_relabeled (h : (ts ++ [Token.eof 1]).takeWhile (·.kind != TokenKind.eof) = ts) :
    ((ts ++ [Token.eof 1]).map r.token).takeWhile (·.kind != TokenKind.eof) = ts.map r.token := by
  have kinds : (fun token : Token => token.kind != TokenKind.eof) ∘ r.token =
      fun token => token.kind != TokenKind.eof :=
    rfl
  rw [List.takeWhile_map, kinds, h]

/-- Relabeled tokens spell the relabeled expression. -/
theorem ReadsExpr.relabel (hr : r.IsSteady) {e : Expr} (h : ReadsExpr .whole n ts e n') :
    ReadsExpr .whole (r.id n) (ts.map r.token) (e.relabel r) (r.id n') := by
  have words := takeWhile_append_eof (derives_of_reads h)
  have parsed : parseExpression n (ts ++ [Token.eof 1]) = ⟨.ok e, n'⟩ :=
    parseExpression_eq_ok.mpr (by rwa [words])
  have relabeled := parseExpression_relabel hr n (exists_eof_append ts)
  rw [parsed] at relabeled
  exact takeWhile_relabeled (r := r) words ▸ parseExpression_eq_ok.mp relabeled

theorem ReadsOptional.relabel (hr : r.IsSteady) {value : Option Expr} (h : ReadsOptional n ts value n') :
    ReadsOptional (r.id n) (ts.map r.token) (value.map (Expr.relabel r)) (r.id n') := by
  cases h with
  | none => exact .none
  | some h => exact .some (h.relabel hr)

theorem ReadsVariable.relabel (hr : r.IsSteady) {t : Stmt} (h : ReadsVariable n ts t n') :
    ReadsVariable (r.id n) (ts.map r.token) (t.relabel r) (r.id n') := by
  cases h with
  | bare hname hsemicolon => exact .bare hname hsemicolon
  | initialized hname hequal hvalue hsemicolon =>
    rw [List.map_append]
    exact @ReadsVariable.initialized _ (r.token _) (r.token _) _ _ _ (r.token _) hname hequal
      (hvalue.relabel hr) hsemicolon

/-- Relabeled tokens spell the relabeled first clause of a loop. -/
theorem ReadsInitializer.relabel (hr : r.IsSteady) {first : Option Stmt}
    (h : ReadsInitializer n ts first n') :
    ReadsInitializer (r.id n) (ts.map r.token) (first.map (Stmt.relabel r)) (r.id n') := by
  cases h with
  | none hsemicolon => exact .none hsemicolon
  | varDecl hkeyword hvariable => exact .varDecl hkeyword (hvariable.relabel hr)
  | expression hreads hsemicolon =>
    rw [List.map_append]
    exact .expression (hreads.relabel hr) hsemicolon

theorem declarations_singleton {isOpen : Bool} {t : Stmt} (h : ReadsDeclaration isOpen n ts t n') :
    ReadsDeclarations n ts [t] n' :=
  List.append_nil ts ▸ .cons h .nil

theorem declaration_of_singleton {t : Stmt} (h : ReadsDeclarations n ts [t] n') :
    ∃ isOpen, ReadsDeclaration isOpen n ts t n' := by
  cases h with
  | cons hfirst hmore =>
    cases hmore
    exact ⟨_, by rwa [List.append_nil]⟩

/-- A declaration that begins like a statement is one. -/
theorem statement_of_declaration {isOpen : Bool} {token : Token} {t : Stmt}
    (htoken : token.kind ∉ neverFirst) (h : ReadsDeclaration isOpen n (token :: ts) t n') :
    ReadsStatement isOpen n (token :: ts) t n' := by
  generalize hus : token :: ts = us at h
  cases h with
  | statement h => exact h
  | varDecl hkeyword =>
    cases hus
    exact absurd (by rw [hkeyword]; decide) htoken
  | funDecl hkeyword =>
    cases hus
    exact absurd (by rw [hkeyword]; decide) htoken
  | classDecl hkeyword =>
    cases hus
    exact absurd (by rw [hkeyword]; decide) htoken

/-- Relabeled tokens spell the relabeled statement. -/
theorem ReadsStatement.relabel (hr : r.IsSteady) {isOpen : Bool} {t : Stmt}
    (h : ReadsStatement isOpen n ts t n') :
    ∃ isOpen, ReadsStatement isOpen (r.id n) (ts.map r.token) (t.relabel r) (r.id n') := by
  have alone := declarations_singleton (.statement h)
  have words := takeWhile_append_eof (derives_of_statement h)
  have parsed : parseProgram n (ts ++ [Token.eof 1]) = ⟨.ok [t], n'⟩ :=
    parseProgram_eq_ok.mpr (by rwa [words])
  have relabeled := parseProgram_relabel hr n (exists_eof_append ts)
  rw [parsed] at relabeled
  have reads := takeWhile_relabeled (r := r) words ▸ parseProgram_eq_ok.mp relabeled
  obtain ⟨isOpen, hdeclaration⟩ := declaration_of_singleton reads
  obtain ⟨token, us, rfl, htoken⟩ := statement_head h
  exact ⟨isOpen, statement_of_declaration htoken hdeclaration⟩

end

end Lox
