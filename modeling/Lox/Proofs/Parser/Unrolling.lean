import Lox.Proofs.Parser.Renumbering
import Mathlib.Data.Nat.Pairing

/-!
# A `for` loop and its expansion

There is no tree for `for`. The loop can be written out with `while`: its first clause in braces around
it, its step behind the body in braces of their own. Either way the same clauses are read, in another
order, since the step of the loop stands in front of its body. So the same tree comes out, with other
identities and on other lines (`exists_common_tree`).

Clauses that are missing take their braces with them, and a condition that is missing is `true`.
-/

namespace Lox

open Lox.Parser Lox.Grammar Lox.Grammar.Phrase

/-! ## Parts of a loop -/

/-- What a `for` loop is written with: a first clause with its semicolon, a condition and a step, which
may both be missing, and a body. -/
structure LoopParts where
  first : List Token
  condition : List Token
  step : List Token
  body : List Token

namespace LoopParts

/-- Each part derives what its place asks for. -/
structure Formed (p : LoopParts) : Prop where
  first : Derives (rule .varDecl ||| rule .exprStmt ||| mark .semicolon) p.first
  condition : Derives (optional (rule .expression)) p.condition
  step : Derives (optional (rule .expression)) p.step
  body : Derives (rule .statement) p.body

/-- The tokens are a `for` loop of these parts. -/
inductive Loop (p : LoopParts) : List Token → Prop
  | intro {keyword opening semicolon closing} : keyword.kind = .keyword .forKw →
      opening.kind = .symbol .leftParen → semicolon.kind = .symbol .semicolon →
      closing.kind = .symbol .rightParen →
      Loop p (keyword :: opening :: p.first ++ p.condition ++ semicolon :: p.step ++
        closing :: p.body)

/-- The tokens are the condition, or `true` if there is none. -/
inductive Test (p : LoopParts) : List Token → Prop
  | given : p.condition ≠ [] → Test p p.condition
  | always {token} : p.condition = [] → token.kind = .keyword .trueKw → Test p [token]

/-- The tokens are the body with the step behind it in braces, or the body if there is no step. -/
inductive Round (p : LoopParts) : List Token → Prop
  | bare : p.step = [] → Round p p.body
  | stepping {opening semicolon closing} : p.step ≠ [] → opening.kind = .symbol .leftBrace →
      semicolon.kind = .symbol .semicolon → closing.kind = .symbol .rightBrace →
      Round p (opening :: (p.body ++ (p.step ++ [semicolon])) ++ [closing])

/-- The tokens are the loop with `while`, without the first clause. -/
inductive While (p : LoopParts) : List Token → Prop
  | intro {keyword opening test closing round} : keyword.kind = .keyword .whileKw →
      opening.kind = .symbol .leftParen → p.Test test → closing.kind = .symbol .rightParen →
      p.Round round → While p (keyword :: opening :: test ++ closing :: round)

/-- The tokens are the expansion: the loop with `while`, in braces behind the first clause unless that is
only a semicolon. -/
inductive Expansion (p : LoopParts) : List Token → Prop
  | bare {ts} : Derives (mark .semicolon) p.first → p.While ts → Expansion p ts
  | inBraces {opening ts closing} : ¬ Derives (mark .semicolon) p.first →
      opening.kind = .symbol .leftBrace → p.While ts → closing.kind = .symbol .rightBrace →
      Expansion p (opening :: (p.first ++ ts) ++ [closing])

/-- The parts with each token replaced. -/
def map (f : Token → Token) (p : LoopParts) : LoopParts :=
  ⟨p.first.map f, p.condition.map f, p.step.map f, p.body.map f⟩

end LoopParts

/-! ## Lines -/

/-- The same token; the lines need only belong together. -/
structure Token.Alike (line : Nat → Nat → Prop) (token token' : Token) : Prop where
  kind : token.kind = token'.kind
  lexeme : token.lexeme = token'.lexeme
  line : line token.line token'.line

/-- The same parts, on lines that belong together. -/
structure LoopParts.Alike (line : Nat → Nat → Prop) (p p' : LoopParts) : Prop where
  first : List.Forall₂ (Token.Alike line) p.first p'.first
  condition : List.Forall₂ (Token.Alike line) p.condition p'.condition
  step : List.Forall₂ (Token.Alike line) p.step p'.step
  body : List.Forall₂ (Token.Alike line) p.body p'.body

/-- The first token, on a line from which the lines of both can be told. -/
def Token.onBoth (token token' : Token) : Token :=
  { token with line := Nat.pair token.line token'.line }

/-- The parts, on lines from which the lines of both can be told. -/
def LoopParts.onBoth (p p' : LoopParts) : LoopParts where
  first := List.zipWith Token.onBoth p.first p'.first
  condition := List.zipWith Token.onBoth p.condition p'.condition
  step := List.zipWith Token.onBoth p.step p'.step
  body := List.zipWith Token.onBoth p.body p'.body

open Classical in
/-- The two lines that a line stands for, if they belong together. -/
noncomputable def bothLines (line : Nat → Nat → Prop) (n : Nat) : Nat × Nat :=
  if line n.unpair.1 n.unpair.2 then n.unpair else (0, 0)

section

variable {line : Nat → Nat → Prop}

theorem line_bothLines (hline : ∀ n, line n n) (n : Nat) :
    line (bothLines line n).1 (bothLines line n).2 := by
  unfold bothLines
  split
  · assumption
  · exact hline 0

theorem map_onBoth {ts ts' : List Token} (h : List.Forall₂ (Token.Alike line) ts ts') :
    (List.zipWith Token.onBoth ts ts').map (Token.relined fun n => (bothLines line n).1) = ts ∧
      (List.zipWith Token.onBoth ts ts').map (Token.relined fun n => (bothLines line n).2) = ts' := by
  induction h with
  | nil => exact ⟨rfl, rfl⟩
  | @cons token token' _ _ h _ ih =>
    have both : bothLines line (Nat.pair token.line token'.line) = (token.line, token'.line) := by
      rw [bothLines, Nat.unpair_pair, if_pos h.line]
    have first : (token.onBoth token').relined (fun n => (bothLines line n).1) = token := by
      simp only [Token.relined, Token.onBoth, both]
    have second : (token.onBoth token').relined (fun n => (bothLines line n).2) = token' := by
      simp only [Token.relined, Token.onBoth, both, h.kind, h.lexeme]
    simp only [List.zipWith_cons_cons, List.map_cons, first, second, ih.1, ih.2, and_self]

/-- Parts on other lines come from the same ones. -/
theorem LoopParts.Alike.onBoth {p p' : LoopParts} (h : p.Alike line p') :
    (p.onBoth p').map (Token.relined fun n => (bothLines line n).1) = p ∧
      (p.onBoth p').map (Token.relined fun n => (bothLines line n).2) = p' := by
  obtain ⟨first, condition, step, body⟩ := p
  obtain ⟨first', condition', step', body'⟩ := p'
  obtain ⟨hfirst, hcondition, hstep, hbody⟩ := h
  simp only [LoopParts.map, LoopParts.onBoth, map_onBoth hfirst, map_onBoth hcondition,
    map_onBoth hstep, map_onBoth hbody, and_self]

end

/-- Only the kinds of tokens count for what they derive. -/
theorem Grammar.Derives.of_kinds {p : Phrase} {ts us : List Token} (h : Derives p ts)
    (hkinds : us.map (·.kind) = ts.map (·.kind)) : Derives p us := by
  induction h generalizing us with
  | terminal hcovers =>
    obtain ⟨token, rfl, hkind⟩ := List.map_eq_singleton_iff.mp hkinds
    exact .terminal (hkind ▸ hcovers)
  | rule _ ih => exact .rule (ih hkinds)
  | seq _ _ ih ih' =>
    rw [List.map_append] at hkinds
    obtain ⟨_, _, rfl, hfirst, hsecond⟩ := List.map_eq_append_iff.mp hkinds
    exact .seq (ih hfirst) (ih' hsecond)
  | left _ ih => exact .left (ih hkinds)
  | right _ ih => exact .right (ih hkinds)
  | absent =>
    obtain rfl := List.map_eq_nil_iff.mp hkinds
    exact .absent
  | present _ ih => exact .present (ih hkinds)
  | noneOf =>
    obtain rfl := List.map_eq_nil_iff.mp hkinds
    exact .noneOf
  | oneOf _ _ ih ih' =>
    rw [List.map_append] at hkinds
    obtain ⟨_, _, rfl, hfirst, hsecond⟩ := List.map_eq_append_iff.mp hkinds
    exact .oneOf (ih hfirst) (ih' hsecond)
  | noneMore =>
    obtain rfl := List.map_eq_nil_iff.mp hkinds
    exact .noneMore
  | oneMore _ _ ih ih' =>
    rw [List.map_append] at hkinds
    obtain ⟨_, _, rfl, hfirst, hsecond⟩ := List.map_eq_append_iff.mp hkinds
    exact .oneMore (ih hfirst) (ih' hsecond)

theorem Grammar.Derives.of_relined {p : Phrase} {ts : List Token} {line : Nat → Nat}
    (h : Derives p (ts.map (Token.relined line))) : Derives p ts := by
  refine h.of_kinds ?_
  rw [List.map_map]
  rfl

theorem LoopParts.Formed.of_relined {p : LoopParts} {line : Nat → Nat}
    (h : (p.map (Token.relined line)).Formed) : p.Formed :=
  ⟨h.first.of_relined, h.condition.of_relined, h.step.of_relined, h.body.of_relined⟩

/-! ## Reading a loop and its expansion -/

namespace LoopParts

section

variable {p : LoopParts} {ts : List Token} {n n₁ n₂ n₃ n₄ : Nat} {isOpen : Bool}
variable {first : Option Stmt} {condition step : Option Expr} {body : Stmt}

theorem reads_ne_nil {rule : ExprRule} {e : Expr} (h : ReadsExpr rule n ts e n₁) : ts ≠ [] := by
  obtain ⟨token, us, rfl, -⟩ := reads_head h
  exact List.cons_ne_nil token us

/-- A loop is read in the order of its parts. -/
theorem Loop.reads (h : p.Loop ts) (hfirst : ReadsInitializer n p.first first n₁)
    (hcondition : ReadsOptional n₁ p.condition condition n₂)
    (hstep : ReadsOptional n₂ p.step step n₃) (hbody : ReadsStatement isOpen n₃ p.body body n₄) :
    ReadsStatement isOpen n ts (.forLoop first condition step body) n₄ := by
  obtain ⟨hkeyword, hopening, hsemicolon, hclosing⟩ := h
  exact .forLoop hkeyword hopening hfirst hcondition hsemicolon hstep hclosing hbody

theorem Test.reads (h : p.Test ts) (hcondition : ReadsOptional n p.condition condition n₁) :
    ReadsExpr .whole n ts (condition.getD (.literal (.boolean true))) n₁ := by
  have literal {token : Token} (hkind : token.kind = .keyword .trueKw) :
      ReadsExpr .whole n [token] (.literal (.boolean true)) n :=
    .loosest (.operand (.operand (.operand (.operand (.operand (.operand (.prefixed (.applied
      (.primary (.literal (by rw [hkind]; rfl)))))))))))
  generalize hus : p.condition = us at hcondition
  cases h with
  | given hgiven =>
    rw [hus] at hgiven ⊢
    cases hcondition with
    | none => exact absurd rfl hgiven
    | some hcondition => exact hcondition
  | always hnone hkind =>
    obtain rfl : us = [] := hus.symm.trans hnone
    cases hcondition with
    | none => exact literal hkind
    | some hcondition => exact absurd rfl (reads_ne_nil hcondition)

/-- The expansion is read with the body before the step. -/
theorem Round.reads (h : p.Round ts) (hbody : ReadsStatement isOpen n p.body body n₁)
    (hstep : ReadsOptional n₁ p.step step n₂) : ∃ isOpen,
      ReadsStatement isOpen n ts (step.elim body fun step => .block [body, .expression step]) n₂ := by
  generalize hus : p.step = us at hstep
  cases h with
  | bare hnone =>
    obtain rfl : us = [] := hus.symm.trans hnone
    cases hstep with
    | none => exact ⟨isOpen, hbody⟩
    | some hstep => exact absurd rfl (reads_ne_nil hstep)
  | stepping hgiven hopening hsemicolon hclosing =>
    rw [hus] at hgiven ⊢
    cases hstep with
    | none => exact absurd rfl hgiven
    | some hstep =>
      refine ⟨false, .block hopening (.cons (.statement hbody) ?_) hclosing⟩
      exact declarations_singleton (.statement (.expression hstep hsemicolon))

theorem While.reads (h : p.While ts) (hcondition : ReadsOptional n p.condition condition n₁)
    (hbody : ReadsStatement isOpen n₁ p.body body n₂) (hstep : ReadsOptional n₂ p.step step n₃) :
    ∃ isOpen, ReadsStatement isOpen n ts (.forLoop none condition step body) n₃ := by
  obtain ⟨hkeyword, hopening, htest, hclosing, hround⟩ := h
  obtain ⟨isOpen, hround⟩ := hround.reads hbody hstep
  refine ⟨isOpen, ?_⟩
  cases step <;> exact .whileLoop hkeyword hopening (htest.reads hcondition) hclosing hround

/-- A first clause that is only a semicolon is no statement. -/
theorem initializer_eq_none (h : ReadsInitializer n ts first n₁) :
    Derives (mark .semicolon) ts ↔ first = none := by
  constructor
  · intro hmark
    obtain ⟨semicolon, rfl, hkind⟩ := derives_spells meaning_closed hmark
    generalize hus : [semicolon] = us at h
    cases h with
    | none => rfl
    | varDecl hkeyword _ =>
      cases hus
      cases hkind.symm.trans hkeyword
    | expression h _ =>
      have empty := (List.append_eq_singleton_iff.mp hus.symm).resolve_right
        fun ends => List.cons_ne_nil _ _ ends.2
      exact absurd empty.1 (reads_ne_nil h)
  · rintro rfl
    cases h with
    | none hsemicolon => exact derives_mark hsemicolon

theorem initializer_none (h : ReadsInitializer n ts none n₁) : n = n₁ := by
  cases h
  rfl

/-- The first clause of a loop is read as a declaration. -/
theorem initializer_reads (h : ReadsInitializer n ts first n₁) {t : Stmt} (hfirst : first = some t) :
    ReadsDeclaration false n ts t n₁ := by
  cases h with
  | none => nomatch hfirst
  | varDecl hkeyword h =>
    cases hfirst
    exact .varDecl hkeyword h
  | expression h hsemicolon =>
    cases hfirst
    exact .statement (.expression h hsemicolon)

/-- The expansion is read as the same loop, with its step behind the body. -/
theorem Expansion.reads (h : p.Expansion ts) (hfirst : ReadsInitializer n p.first first n₁)
    (hcondition : ReadsOptional n₁ p.condition condition n₂)
    (hbody : ReadsStatement isOpen n₂ p.body body n₃) (hstep : ReadsOptional n₃ p.step step n₄) :
    ∃ isOpen, ReadsStatement isOpen n ts (.forLoop first condition step body) n₄ := by
  cases h with
  | bare hbare hwhile =>
    obtain rfl := (initializer_eq_none hfirst).mp hbare
    obtain rfl := initializer_none hfirst
    exact hwhile.reads hcondition hbody hstep
  | inBraces hgiven hopening hwhile hclosing =>
    obtain ⟨isOpen, hwhile⟩ := hwhile.reads hcondition hbody hstep
    obtain ⟨t, rfl⟩ := Option.ne_none_iff_exists'.mp
      fun missing => hgiven ((initializer_eq_none hfirst).mpr missing)
    refine ⟨false, .block hopening (.cons (initializer_reads hfirst rfl) ?_) hclosing⟩
    exact declarations_singleton (.statement hwhile)

end

/-- A statement that begins with `for` is a loop of parts that derive what their places ask for. -/
theorem loop_of_reads {keyword : Token} (hkeyword : keyword.kind = .keyword .forKw)
    {ts : List Token} {t : Stmt} {n n' : Nat} {isOpen : Bool}
    (h : ReadsStatement isOpen n (keyword :: ts) t n') :
    ∃ p : LoopParts, p.Formed ∧ p.Loop (keyword :: ts) := by
  generalize hus : keyword :: ts = us at h
  cases h with
  | forLoop hfor hopening hfirst hcondition hsemicolon hstep hclosing hbody =>
    exact ⟨⟨_, _, _, _⟩, ⟨derives_of_initializer hfirst, derives_optional hcondition,
      derives_optional hstep, derives_of_statement hbody⟩, .intro hfor hopening hsemicolon hclosing⟩
  | expression h =>
    obtain ⟨token, us, rfl, htoken⟩ := reads_head h
    obtain ⟨rfl, -⟩ := List.cons_eq_cons.mp hus
    have starts : startsExpression keyword = true := htoken
    simp [startsExpression, startsOperand, isPrefixOperator, hkeyword] at starts
  | print hother | returns hother | block hother | ifThen hother | ifElse hother
  | whileLoop hother =>
    obtain ⟨rfl, -⟩ := List.cons_eq_cons.mp hus
    cases hkeyword.symm.trans hother

/-! ## The common tree -/

/-- Numbers up to `k` stay, and the `d` next ones change places with the `e` behind them. -/
def exchange (k d e id : Nat) : Nat :=
  if id < k then id else if id < k + d then id + e else id - d

theorem readsOptional_shifted {ts : List Token} {value : Option Expr} {d : Nat}
    (h : ReadsOptional 0 ts value d) (k : Nat) (line : Nat → Nat) :
    ReadsOptional k (ts.map (Token.relined line)) (value.map (Expr.relabel (.shift k line)))
      (d + k) := by
  have shifted := h.relabel (Relabeling.steady_shift k line)
  rwa [show (Relabeling.shift k line).id 0 = k from Nat.zero_add k] at shifted

theorem readsStatement_shifted {ts : List Token} {t : Stmt} {isOpen : Bool} {e : Nat}
    (h : ReadsStatement isOpen 0 ts t e) (k : Nat) (line : Nat → Nat) :
    ∃ isOpen, ReadsStatement isOpen k (ts.map (Token.relined line)) (t.relabel (.shift k line))
      (e + k) := by
  obtain ⟨isOpen, shifted⟩ := h.relabel (Relabeling.steady_shift k line)
  rw [show (Relabeling.shift k line).id 0 = k from Nat.zero_add k] at shifted
  exact ⟨isOpen, shifted⟩

/-- The loop that is read from zero on, where the step and the body were each read from zero on. -/
def loopTree (k d : Nat) (first : Option Stmt) (condition step : Option Expr) (body : Stmt) : Stmt :=
  .forLoop first condition (step.map (Expr.relabel (.shift k id))) (body.relabel (.shift (k + d) id))

section

variable {q : LoopParts} {first : Option Stmt} {condition step : Option Expr} {body : Stmt}
variable {n n₁ n₂ d e : Nat} {isOpen : Bool} {line : Nat → Nat} {ts : List Token}

/-- A relabeling that moves each part as a whole. -/
theorem relabel_loopTree (hfirst : ReadsInitializer 0 q.first first n₁)
    (hcondition : ReadsOptional n₁ q.condition condition n₂)
    (hstep : ReadsOptional 0 q.step step d) (hbody : ReadsStatement isOpen 0 q.body body e)
    (line move : Nat → Nat) (stepStart bodyStart : Nat)
    (clauses : ∀ id < n₂, move id = id + n) (steps : ∀ id < d, move (id + n₂) = id + stepStart)
    (bodies : ∀ id < e, move (id + (n₂ + d)) = id + bodyStart) :
    (loopTree n₂ d first condition step body).relabel ⟨move, line⟩ =
      .forLoop (first.map (Stmt.relabel (.shift n line)))
        (condition.map (Expr.relabel (.shift n line)))
        (step.map (Expr.relabel (.shift stepStart line)))
        (body.relabel (.shift bodyStart line)) := by
  -- the identities in each part are bounded, and below its bound a relabeling is one shift
  have conditionIds := numbered_of_optional hcondition
  have firsts : first.map (Stmt.relabel ⟨move, line⟩) = first.map (Stmt.relabel (.shift n line)) := by
    refine Option.map_congr fun t ht =>
      @Stmt.relabel_congr ⟨move, line⟩ (.shift n line) rfl t fun o ho => ?_
    obtain rfl : first = some t := ht
    have within := ((numbered_of_initializer hfirst).within o ho).2
    exact clauses o.id (Nat.lt_of_lt_of_le within conditionIds.le)
  have conditions : condition.map (Expr.relabel ⟨move, line⟩) =
      condition.map (Expr.relabel (.shift n line)) :=
    @Expr.relabelIfAny_congr ⟨move, line⟩ (.shift n line) rfl condition
      fun o ho => clauses o.id (conditionIds.within o ho).2
  have stepping : step.map (Expr.relabel (Relabeling.after ⟨move, line⟩ (.shift n₂ id))) =
      step.map (Expr.relabel (.shift stepStart line)) :=
    @Expr.relabelIfAny_congr (.after ⟨move, line⟩ (.shift n₂ id)) (.shift stepStart line) rfl step
      fun o ho => steps o.id ((numbered_of_optional hstep).within o ho).2
  have rounds : body.relabel (Relabeling.after ⟨move, line⟩ (.shift (n₂ + d) id)) =
      body.relabel (.shift bodyStart line) :=
    @Stmt.relabel_congr (.after ⟨move, line⟩ (.shift (n₂ + d) id)) (.shift bodyStart line) rfl body
      fun o ho => bodies o.id ((numbered_of_statement hbody).within o ho).2
  rw [loopTree, Stmt.relabel_forLoop, Expr.relabel_optional, Stmt.relabel_relabel, firsts, conditions,
    stepping, rounds]

/-- A loop is read from any number on as it is from zero on. -/
theorem Loop.reads_shifted (h : (q.map (Token.relined line)).Loop ts)
    (hfirst : ReadsInitializer 0 q.first first n₁)
    (hcondition : ReadsOptional n₁ q.condition condition n₂)
    (hstep : ReadsOptional 0 q.step step d) (hbody : ReadsStatement isOpen 0 q.body body e) :
    ∃ isOpen m, ReadsStatement isOpen n ts
      ((loopTree n₂ d first condition step body).relabel (.shift n line)) m := by
  have firstReads := hfirst.relabel (Relabeling.steady_shift n line)
  have conditionReads := hcondition.relabel (Relabeling.steady_shift n line)
  rw [show (Relabeling.shift n line).id 0 = n from Nat.zero_add n] at firstReads
  have stepReads := readsOptional_shifted hstep (n₂ + n) line
  obtain ⟨isOpen, bodyReads⟩ := readsStatement_shifted hbody (d + (n₂ + n)) line
  have tree := relabel_loopTree hfirst hcondition hstep hbody line (· + n) (n₂ + n) (d + (n₂ + n))
    (fun _ _ => rfl) (fun id _ => Nat.add_assoc id n₂ n) (fun id _ => by omega)
  exact ⟨isOpen, _, tree ▸ h.reads firstReads conditionReads stepReads bodyReads⟩

/-- The expansion is read as the same loop, where the numbers of the step and of the body have changed
places. -/
theorem Expansion.reads_exchanged (h : (q.map (Token.relined line)).Expansion ts)
    (hfirst : ReadsInitializer 0 q.first first n₁)
    (hcondition : ReadsOptional n₁ q.condition condition n₂)
    (hstep : ReadsOptional 0 q.step step d) (hbody : ReadsStatement isOpen 0 q.body body e) :
    ∃ isOpen m, ReadsStatement isOpen n ts ((loopTree n₂ d first condition step body).relabel
      ⟨fun id => exchange n₂ d e id + n, line⟩) m := by
  have firstReads := hfirst.relabel (Relabeling.steady_shift n line)
  have conditionReads := hcondition.relabel (Relabeling.steady_shift n line)
  rw [show (Relabeling.shift n line).id 0 = n from Nat.zero_add n] at firstReads
  obtain ⟨isOpen, bodyReads⟩ := readsStatement_shifted hbody (n₂ + n) line
  have stepReads := readsOptional_shifted hstep (e + (n₂ + n)) line
  rw [relabel_loopTree (n := n) hfirst hcondition hstep hbody line _ (e + (n₂ + n)) (n₂ + n)]
  · obtain ⟨isOpen, reads⟩ := h.reads firstReads conditionReads bodyReads stepReads
    exact ⟨isOpen, _, reads⟩
  · intro id hid
    rw [exchange, if_pos hid]
  · intro id hid
    rw [exchange, if_neg (by omega), if_pos (by omega)]
    omega
  · intro id hid
    rw [exchange, if_neg (by omega), if_neg (by omega)]
    omega

end

/-- A loop and its expansion are read as the same tree, each with its own identities and lines. -/
theorem exists_common_tree {line : Nat → Nat → Prop} (hline : ∀ n, line n n) {p p' : LoopParts}
    (hp : p.Formed) (halike : p.Alike line p') {ts ts' : List Token} (hloop : p.Loop ts)
    (hexpansion : p'.Expansion ts') (n n' : Nat) :
    ∃ (tree : Stmt) (r r' : Relabeling), (∃ isOpen m, ReadsStatement isOpen n ts (tree.relabel r) m) ∧
      (∃ isOpen m, ReadsStatement isOpen n' ts' (tree.relabel r') m) ∧
      ∀ l, line (r.line l) (r'.line l) := by
  obtain ⟨left, right⟩ := halike.onBoth
  rw [← left] at hp hloop
  rw [← right] at hexpansion
  have hq := hp.of_relined
  obtain ⟨first, n₁, hfirst⟩ := readable_initializer (derives_spells meaning_closed hq.first) 0
  obtain ⟨condition, n₂, hcondition⟩ :=
    readable_optional (derives_spells meaning_closed hq.condition) n₁
  obtain ⟨step, d, hstep⟩ := readable_optional (derives_spells meaning_closed hq.step) 0
  obtain ⟨isOpen, body, e, hbody⟩ := derives_spells meaning_closed hq.body 0
  exact ⟨_, _, _, hloop.reads_shifted hfirst hcondition hstep hbody,
    hexpansion.reads_exchanged hfirst hcondition hstep hbody, line_bothLines hline⟩

end LoopParts

end Lox
