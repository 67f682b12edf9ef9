import Lox.Proofs.Parser.Marks
import Lox.Proofs.Syntax.Reading
import Mathlib.Data.List.TakeWhile

/-!
# The parser of expressions reads what the grammar spells

Two directions. Whatever the parser gives without an error is spelled by the tokens that it took
(`expression_gives`). And tokens that spell an expression are taken, whatever stands behind them, as
long as it cannot go on with the expression (`expression_takes`).

Each rule of the parser gets one lemma for each direction, in terms of the parser for the whole
expressions inside; the bound on how deep these nest comes in at the very end.
-/

namespace Lox.Parser

/-! ## What the parser gives is spelled by what it takes -/

/-- A token that is not the end of the source is the first one that is left. -/
private theorem rest_eq_here_cons {s : State} (ends : s.Ends) (h : s.here.kind ≠ .eof) :
    s.rest = s.here :: s.rest.tail := by
  cases hs : s.rest with
  | nil => rw [State.here, hs] at h; exact absurd ends h
  | cons token rest => rw [here_cons hs]; rfl

private theorem leaf_gives {s s' : State} {tree e : Expr} (h : Gives (leaf tree) s e s') :
    e = tree ∧ s' = { s with rest := s.rest.tail } := by
  cases h.run
  exact ⟨rfl, rfl⟩

/-- Items with commas between them are one list of arguments. -/
theorem readsItems_of_separated {n n' : Nat} {ts : List Token} {es : List Expr}
    (h : Separated (ReadsExpr .whole) n ts es n') : ReadsItems n ts es n' := by
  induction h with
  | last h => exact .last h
  | more h hcomma _ ih => exact .more h hcomma ih

section
variable {e : Parser Expr} [Forward e] (he : ReadBy (ReadsExpr .whole) e)

include he

theorem primary_gives : ReadBy (ReadsExpr .primary) (primary e) := by
  intro s t s' ends h
  have constant : ∀ {value}, s.here.kind.literal? = some value →
      Gives (leaf (.literal value)) s t s' →
      ∃ ts, s.rest = ts ++ s'.rest ∧ ReadsExpr .primary s.nextId ts t s'.nextId := by
    intro value hkind hleaf
    obtain ⟨rfl, rfl⟩ := leaf_gives hleaf
    exact ⟨[s.here], rest_eq_here_cons ends (fun heof => by rw [heof] at hkind; cases hkind),
      .literal hkind⟩
  unfold primary at h
  have hmatch := here_gives h
  split at hmatch
  · next hkind => exact constant (by rw [hkind]; rfl) hmatch
  · next hkind => exact constant (by rw [hkind]; rfl) hmatch
  · next hkind => exact constant (by rw [hkind]; rfl) hmatch
  · next hkind => exact constant (by rw [hkind]; rfl) hmatch
  · next hkind => exact constant (by rw [hkind]; rfl) hmatch
  · next hkind =>
    obtain ⟨id, s₁, hfresh, hleaf⟩ := bind_gives hmatch
    cases hfresh.run
    obtain ⟨rfl, rfl⟩ := leaf_gives hleaf
    exact ⟨[s.here], rest_eq_here_cons ends (by rw [hkind]; decide), .this hkind⟩
  · next hkind =>
    obtain ⟨id, s₁, hfresh, hleaf⟩ := bind_gives hmatch
    cases hfresh.run
    obtain ⟨rfl, rfl⟩ := leaf_gives hleaf
    exact ⟨[s.here], rest_eq_here_cons ends (by rw [hkind]; decide), .var hkind⟩
  · next hkind =>
    obtain ⟨_, s₁, hskip, h₁⟩ := bind_gives hmatch
    cases hskip.run
    obtain ⟨inner, s₂, hinner, h₂⟩ := bind_gives h₁
    obtain ⟨closing, s₃, hclosing, hpure⟩ := bind_gives h₂
    obtain ⟨rfl, rfl⟩ := pure_gives hpure
    obtain ⟨ts, hts, hreads⟩ := he (s := { s with rest := s.rest.tail }) ends hinner
    obtain ⟨hrest, hclosed, hs₃⟩ := expectMark_gives hclosing
    refine ⟨s.here :: ts ++ [closing], ?_, ?_⟩
    · rw [rest_eq_here_cons ends (by rw [hkind]; decide), show s.rest.tail = _ from hts, hrest]
      simp
    · rw [hs₃]
      exact .grouping hkind hreads hclosed
  · exact (fail_gives hmatch).elim

theorem application_gives {n : Nat} {callee t : Expr} {ts : List Token} {s s' : State}
    (ends : s.Ends) (hcallee : ReadsExpr .applied n ts callee s.nextId)
    (h : Gives (application e callee) s (some t) s') :
    ∃ us, s.rest = us ++ s'.rest ∧ ReadsExpr .applied n (ts ++ us) t s'.nextId := by
  unfold application at h
  obtain ⟨called, s₁, haccept, h₁⟩ := bind_gives h
  obtain ⟨rfl, opening, hopening, hkind, hs₁⟩ | ⟨rfl, -, rfl⟩ := accept_gives haccept
  · rw [if_pos rfl] at h₁
    obtain ⟨arguments, s₂, hlist, h₂⟩ := bind_gives h₁
    obtain ⟨closing, s₃, hclosing, hpure⟩ := bind_gives h₂
    obtain ⟨ht, rfl⟩ := pure_gives hpure
    cases ht
    obtain ⟨hrest, hclosed, hs₃⟩ := expectMark_gives hclosing
    obtain ⟨us, hus, harguments⟩ : ∃ us, s₁.rest = us ++ s₂.rest ∧
        ReadsArguments s.nextId us arguments s₂.nextId := by
      have hid : s₁.nextId = s.nextId := by rw [hs₁]
      obtain ⟨rfl, rfl⟩ | ⟨us, hus, hsep, hlength⟩ := listed_gives he (haccept.ends ends) hlist
      · exact ⟨[], rfl, hid ▸ .none⟩
      · exact ⟨us, hus, hid ▸ .some (readsItems_of_separated hsep) hlength⟩
    refine ⟨opening :: us ++ [closing], ?_, ?_⟩
    · rw [hopening, hus, hrest]
      simp
    · rw [hs₃]
      simpa using ReadsExpr.call hcallee hkind harguments hclosed
  · rw [if_neg Bool.false_ne_true] at h₁
    obtain ⟨dotted, s₂, hdot, h₂⟩ := bind_gives h₁
    obtain ⟨rfl, dot, hrest, hkind, hs₂⟩ | ⟨rfl, -, rfl⟩ := accept_gives hdot
    · rw [if_pos rfl] at h₂
      obtain ⟨name, s₃, hname, hpure⟩ := bind_gives h₂
      obtain ⟨ht, rfl⟩ := pure_gives hpure
      cases ht
      obtain ⟨hrest', hidentifier, hs₃⟩ := expect_gives hname
      refine ⟨[dot, name], by rw [hrest, hrest']; rfl, ?_⟩
      rw [hs₃, hs₂]
      exact .get hcallee hkind hidentifier
    · rw [if_neg Bool.false_ne_true] at h₂
      cases (pure_gives h₂).1

theorem applied_gives : ReadBy (ReadsExpr .applied) (applied e) := by
  intro s t s' ends h
  unfold applied at h
  obtain ⟨first, s₁, hfirst, hloop⟩ := bind_gives h
  obtain ⟨ts, hts, hreads⟩ := primary_gives he ends hfirst
  refine (iterate_gives
    (fun s₂ callee => s₂.Ends ∧ ∃ ts, s.rest = ts ++ s₂.rest ∧
      ReadsExpr .applied s.nextId ts callee s₂.nextId)
    ?_ ?_ ⟨hfirst.ends ends, ts, hts, .primary hreads⟩ hloop).2
  · intro s₂ callee s₃ hstep
    unfold application at hstep
    obtain ⟨called, s₄, haccept, h₁⟩ := bind_gives hstep
    obtain ⟨rfl, -⟩ | ⟨rfl, -, rfl⟩ := accept_gives haccept
    · obtain ⟨_, _, _, h₂⟩ := bind_gives h₁
      obtain ⟨_, _, _, hpure⟩ := bind_gives h₂
      cases (pure_gives hpure).1
    · obtain ⟨dotted, s₅, hdot, h₂⟩ := bind_gives h₁
      obtain ⟨rfl, -⟩ | ⟨rfl, -, rfl⟩ := accept_gives hdot
      · obtain ⟨_, _, _, hpure⟩ := bind_gives h₂
        cases (pure_gives hpure).1
      · exact (pure_gives h₂).2
  · rintro s₂ callee tree s₃ ⟨ends₂, us, hus, hcallee⟩ hstep
    obtain ⟨vs, hvs, htree⟩ := application_gives he ends₂ hcallee hstep
    exact ⟨hstep.ends ends₂, us ++ vs, by rw [hus, hvs, List.append_assoc], htree⟩

theorem prefixed_gives : ReadBy (ReadsExpr .prefixed) (prefixed e) := by
  intro s t s' ends h
  unfold prefixed at h
  obtain ⟨operators, s₁, haccept, h₁⟩ := bind_gives h
  cases haccept.run
  obtain ⟨operand, s₂, hoperand, hpure⟩ := bind_gives h₁
  obtain ⟨rfl, rfl⟩ := pure_gives hpure
  obtain ⟨ts, hts, hreads⟩ := applied_gives he
    (s := { s with rest := s.rest.dropWhile isPrefixOperator }) ends hoperand
  refine ⟨s.rest.takeWhile isPrefixOperator ++ ts, ?_, ?_⟩
  · rw [List.append_assoc, ← show s.rest.dropWhile isPrefixOperator = _ from hts,
      List.takeWhile_append_dropWhile]
  · have all : ∀ operator ∈ s.rest.takeWhile isPrefixOperator,
        isPrefixOperator operator = true := fun _ h => List.mem_takeWhile_imp h
    revert all
    generalize s.rest.takeWhile isPrefixOperator = operators
    intro all
    induction operators with
    | nil => exact .applied hreads
    | cons operator more ih =>
      exact .unary (all operator List.mem_cons_self)
        (ih fun other h => all other (List.mem_cons_of_mem _ h))

omit he in
/-- Behind the operator of a tier there is its right operand. -/
theorem forward_extended (tier : Tier) (operand : Parser Expr) [Forward operand] (left : Expr)
    (taken : Option Token) : Forward (match taken with
      | none => pure none
      | some operator => do return some (tier.node left operator (← operand)) :
        Parser (Option Expr)) := by
  cases taken <;> infer_instance

omit he in
/-- A step of a tier takes an operator with its right operand, or nothing. -/
theorem extend_gives {tier : Tier} {operand : Parser Expr} [Forward operand] {left : Expr}
    {extended : Option Expr} {s s' : State}
    (h : Gives (tier.extend operand left) s extended s') :
    (extended = none ∧ s' = s) ∨
    ∃ operator s₁ right, s.rest = operator :: s₁.rest ∧ s₁ = { s with rest := s₁.rest } ∧
      tier.operators.contains operator.kind = true ∧ Gives operand s₁ right s' ∧
      extended = some (tier.node left operator right) := by
  unfold Tier.extend at h
  have behind := forward_extended tier operand left
  obtain ⟨taken, s₁, haccept, h₁⟩ := bind_gives h
  obtain ⟨operator, rfl, hrest, htest, hs₁⟩ | ⟨rfl, rfl⟩ := acceptIf_gives haccept
  · obtain ⟨right, s₂, hright, hpure⟩ := bind_gives h₁
    obtain ⟨rfl, rfl⟩ := pure_gives hpure
    exact .inr ⟨operator, s₁, right, hrest, hs₁, htest, hright, rfl⟩
  · exact .inl (pure_gives h₁)

theorem climb_gives (tiers : List Tier) :
    ReadBy (ReadsExpr (.climb tiers)) (climb (prefixed e) tiers) := by
  induction tiers with
  | nil =>
    intro s t s' ends h
    obtain ⟨ts, hts, hreads⟩ := prefixed_gives he ends h
    exact ⟨ts, hts, .prefixed hreads⟩
  | cons tier tighter ih =>
    intro s t s' ends h
    unfold climb at h
    obtain ⟨first, s₁, hfirst, hloop⟩ := bind_gives h
    obtain ⟨ts, hts, hreads⟩ := ih ends hfirst
    refine (iterate_gives
      (fun s₂ left => s₂.Ends ∧ ∃ ts, s.rest = ts ++ s₂.rest ∧
        ReadsExpr (.climb (tier :: tighter)) s.nextId ts left s₂.nextId)
      ?_ ?_ ⟨hfirst.ends ends, ts, hts, .operand hreads⟩ hloop).2
    · intro s₂ left s₃ hstep
      obtain ⟨-, rfl⟩ | ⟨_, _, _, _, _, _, _, hnone⟩ := extend_gives hstep
      · rfl
      · cases hnone
    · rintro s₂ left tree s₃ ⟨ends₂, us, hus, hleft⟩ hstep
      obtain ⟨hnone, -⟩ | ⟨operator, s₄, right, hrest, hs₄, hmem, hright, hsome⟩ :=
        extend_gives hstep
      · cases hnone
      · cases hsome
        have ends₄ : s₄.Ends := by rw [hs₄]; exact ends₂
        obtain ⟨vs, hvs, hreads'⟩ := ih ends₄ hright
        have hid : s₄.nextId = s₂.nextId := by rw [hs₄]
        rw [hid] at hreads'
        refine ⟨hstep.ends ends₂, us ++ operator :: vs, ?_, .operator hleft hmem hreads'⟩
        rw [hus, hrest, hvs]
        simp

theorem assignment_gives : ReadBy (ReadsExpr .whole) (assignment e) := by
  intro s t s' ends h
  unfold assignment at h
  obtain ⟨target, s₁, htarget, h₁⟩ := bind_gives h
  obtain ⟨ts, hts, hreads⟩ := climb_gives he tiers ends htarget
  have h₂ := get_gives h₁
  obtain ⟨assigned, s₂, haccept, h₃⟩ := bind_gives h₂
  obtain ⟨rfl, equal, hequal, hkind, hs₂⟩ | ⟨rfl, -, rfl⟩ := accept_gives haccept
  · rw [if_pos rfl] at h₃
    obtain ⟨value, s₃, hvalue, h₄⟩ := bind_gives h₃
    obtain ⟨us, hus, hvalueReads⟩ := he (haccept.ends (htarget.ends ends)) hvalue
    have hid : s₂.nextId = s₁.nextId := by rw [hs₂]
    rw [hid] at hvalueReads
    have hrest : s.rest = (ts ++ equal :: us) ++ s₃.rest := by
      rw [hts, hequal, hus]
      simp
    unfold assignmentTo at h₄
    split at h₄
    · obtain ⟨id, s₄, hfresh, hpure⟩ := bind_gives h₄
      cases hfresh.run
      obtain ⟨rfl, rfl⟩ := pure_gives hpure
      exact ⟨_, hrest, .assign hreads hkind hvalueReads⟩
    · obtain ⟨rfl, rfl⟩ := pure_gives h₄
      exact ⟨_, hrest, .set hreads hkind hvalueReads⟩
    · obtain ⟨_, s₄, hnote, _⟩ := bind_gives h₄
      exact (note_gives hnote).elim
  · rw [if_neg Bool.false_ne_true] at h₃
    obtain ⟨rfl, rfl⟩ := pure_gives h₃
    exact ⟨ts, hts, .loosest hreads⟩

end

/-- What the parser of expressions gives is spelled by what it takes. -/
theorem expression_gives : ReadBy (ReadsExpr .whole) expression := by
  have upTo : ∀ depth, ReadBy (ReadsExpr .whole) (expressionUpTo depth) := by
    intro depth
    induction depth with
    | zero => exact fun _ h => (fail_gives h).elim
    | succ depth ih => exact assignment_gives ih
  intro s t s' ends h
  unfold expression at h
  exact upTo _ ends (get_gives h)

/-! ## First tokens -/

/-- Holds of the tokens that an operand starts with, the operators before it apart. -/
def startsOperand (token : Token) : Bool :=
  match token.kind with
  | .keyword .falseKw | .keyword .trueKw | .keyword .nilKw | .keyword .thisKw | .number _
  | .string _ | .identifier | .symbol .leftParen => true
  | _ => false

/-- Holds of the tokens that an expression starts with. -/
def startsExpression (token : Token) : Bool := startsOperand token || isPrefixOperator token

theorem startsOperand_of_literal? {token : Token} {value : Literal}
    (h : token.kind.literal? = some value) : startsOperand token = true := by
  unfold TokenKind.literal? at h
  unfold startsOperand
  split at h <;> simp_all

/-- Holds of the tokens that a rule starts with. -/
def startsRule : ExprRule → Token → Bool
  | .primary, token | .applied, token => startsOperand token
  | .whole, token | .climb _, token | .prefixed, token => startsExpression token

/-- What a rule spells starts with a token that says so. -/
theorem reads_head {rule : ExprRule} {n n' : Nat} {ts : List Token} {e : Expr} :
    ReadsExpr rule n ts e n' → ∃ token us, ts = token :: us ∧ startsRule rule token = true
  | .literal h => ⟨_, _, rfl, startsOperand_of_literal? h⟩
  | .this h => ⟨_, _, rfl, by rw [startsRule, startsOperand, h]⟩
  | .var h => ⟨_, _, rfl, by rw [startsRule, startsOperand, h]⟩
  | .grouping h _ _ => ⟨_, _, rfl, by rw [startsRule, startsOperand, h]⟩
  | .primary h => by
    have := reads_head h
    exact this
  | .call h _ _ _ => by
    obtain ⟨token, us, rfl, htoken⟩ := reads_head h
    exact ⟨token, _, rfl, htoken⟩
  | .get h _ _ => by
    obtain ⟨token, us, rfl, htoken⟩ := reads_head h
    exact ⟨token, _, rfl, htoken⟩
  | .applied h => by
    obtain ⟨token, us, rfl, htoken⟩ := reads_head h
    exact ⟨token, us, rfl, Bool.or_eq_true_iff.mpr (.inl htoken)⟩
  | .unary h _ => ⟨_, _, rfl, Bool.or_eq_true_iff.mpr (.inr h)⟩
  | .prefixed h => by
    have := reads_head h
    exact this
  | .operand h => by
    have := reads_head h
    exact this
  | .operator h _ _ => by
    obtain ⟨token, us, rfl, htoken⟩ := reads_head h
    exact ⟨token, _, rfl, htoken⟩
  | .loosest h => by
    have := reads_head h
    exact this
  | .assign h _ _ => by
    obtain ⟨token, us, rfl, htoken⟩ := reads_head h
    exact ⟨token, _, rfl, htoken⟩
  | .set h _ _ => by
    obtain ⟨token, us, rfl, htoken⟩ := reads_head h
    exact ⟨token, _, rfl, htoken⟩

/-- An operand does not start with an operator. -/
theorem isPrefixOperator_of_startsOperand {token : Token} (h : startsOperand token = true) :
    isPrefixOperator token = false := by
  unfold startsOperand at h
  unfold isPrefixOperator
  split at h <;> simp_all

/-- So do the items of a list. -/
theorem items_head {n n' : Nat} {ts : List Token} {es : List Expr} (h : ReadsItems n ts es n') :
    ∃ token us, ts = token :: us ∧ startsExpression token = true := by
  cases h with
  | last h => exact reads_head h
  | more h _ _ =>
    obtain ⟨token, us, rfl, htoken⟩ := reads_head h
    exact ⟨token, _, rfl, htoken⟩

/-- A kind of which no expression starts. -/
theorem ne_of_startsExpression {token : Token} {kind : TokenKind}
    (h : startsExpression token = true) (hkind : startsExpression ⟨kind, "", 0⟩ = false) :
    token.kind ≠ kind := by
  rintro rfl
  have same : startsExpression ⟨token.kind, "", 0⟩ = startsExpression token := rfl
  rw [← same, hkind] at h
  cases h

theorem not_mem_of_startsExpression {token : Token} {kinds : List TokenKind}
    (h : startsExpression token = true) (hkinds : ∀ kind ∈ kinds, startsExpression ⟨kind, "", 0⟩ = false) :
    token.kind ∉ kinds :=
  fun hmem => ne_of_startsExpression h (hkinds _ hmem) rfl

/-! ## What the grammar spells is taken -/

/-- Holds of the tokens that go on with operands and operators of the tiers. -/
def continues : List Tier → TokenKind → Bool
  | [], kind => kind == .symbol .leftParen || kind == .symbol .dot
  | tier :: tighter, kind => tier.operators.contains kind || continues tighter kind

/-- The operators of each tier stop the tighter ones. -/
def Apart : List Tier → Prop
  | [] => True
  | tier :: tighter => (∀ kind ∈ tier.operators, continues tighter kind = false) ∧ Apart tighter

theorem tiers_apart : Apart tiers := by
  simp only [tiers, Apart, and_true]
  decide

/-- No operator or application of the tiers comes next. -/
def Stops (tiers : List Tier) (rest : List Token) : Prop :=
  ∀ token ∈ rest.head?, continues tiers token.kind = false

/-- Nothing that goes on with an expression comes next. -/
def StopsWhole (rest : List Token) : Prop := Stops tiers rest ∧ NotNext (.symbol .equal) rest

theorem Stops.tighter {tier : Tier} {tighter : List Tier} {rest : List Token}
    (h : Stops (tier :: tighter) rest) : Stops tighter rest := by
  intro token htoken
  have := h token htoken
  rw [continues, Bool.or_eq_false_iff] at this
  exact this.2

theorem Stops.applied {tiers : List Tier} {rest : List Token} (h : Stops tiers rest) :
    Stops [] rest := by
  induction tiers with
  | nil => exact h
  | cons tier tighter ih => exact ih h.tighter

/-- The parser takes all whole expressions with less than `bound` tokens. -/
def TakesBelow (e : Parser Expr) (bound : Nat) : Prop :=
  ∀ {n ts t n'}, ReadsExpr .whole n ts t n' → ts.length < bound → Takes e StopsWhole n ts t n'

theorem separated_of_readsItems {n n' : Nat} {ts : List Token} {es : List Expr} :
    ReadsItems n ts es n' → Separated (ReadsExpr .whole) n ts es n'
  | .last h => .last h
  | .more h hcomma hmore => .more h hcomma (separated_of_readsItems hmore)

private theorem leaf_take {s : State} {token : Token} {rest : List Token} (tree : Expr)
    (h : s.rest = token :: rest) : leaf tree s = .ok tree { s with rest := rest } := by
  show EStateM.Result.ok tree { s with rest := s.rest.tail } = _
  rw [h]
  rfl

/-- A mark that no expression goes on with stops expressions. -/
theorem stopsWhole_cons {token : Token} {rest : List Token}
    (h : continues tiers token.kind = false ∧ token.kind ≠ .symbol .equal) :
    StopsWhole (token :: rest) := by
  constructor <;> rintro _ ⟨⟩
  · exact h.1
  · exact h.2

section
variable {e : Parser Expr} {bound : Nat} (he : TakesBelow e bound)

include he

theorem primary_takes {n n' : Nat} {ts : List Token} {t : Expr}
    (h : ReadsExpr .primary n ts t n') (hts : ts.length ≤ bound) :
    Takes (primary e) (fun _ => True) n ts t n' := by
  intro rest _ s hs hn
  unfold primary
  cases h with
  | literal hvalue =>
    rw [bind_ok (here_run s), here_cons hs, ← hn]
    unfold TokenKind.literal? at hvalue
    split at hvalue <;> cases hvalue <;> next hkind => simp only [hkind]; exact leaf_take _ hs
  | this hkind =>
    rw [bind_ok (here_run s), here_cons hs]
    simp only [hkind]
    rw [bind_ok (freshId_run s), ← hn]
    exact leaf_take (s := { s with nextId := s.nextId + 1 }) _ hs
  | var hkind =>
    rw [bind_ok (here_run s), here_cons hs]
    simp only [hkind]
    rw [bind_ok (freshId_run s), ← hn]
    exact leaf_take (s := { s with nextId := s.nextId + 1 }) _ hs
  | grouping hopening hinner hclosing =>
    rename_i opening us inner closing
    rw [bind_ok (here_run s), here_cons hs]
    simp only [hopening]
    rw [bind_ok (skip_run s)]
    have hlength : us.length < bound := by
      simp only [List.length_cons, List.length_append] at hts
      omega
    have stop : StopsWhole (closing :: rest) := stopsWhole_cons (by rw [hclosing]; decide)
    have run := he hinner hlength stop (s := { s with rest := s.rest.tail }) (by simp [hs]) hn
    rw [bind_ok run, bind_ok (expectMark_take _ rfl hclosing)]
    rfl

theorem arguments_takes {n n' : Nat} {ts : List Token} {arguments : List Expr}
    (h : ReadsArguments n ts arguments n') (hts : ts.length < bound) :
    Takes (listed .tooManyArguments e)
      (fun rest => ∃ token more, rest = token :: more ∧ token.kind = .symbol .rightParen)
      n ts arguments n' := by
  rintro _ ⟨closing, more, rfl, hclosing⟩ s hs hn
  unfold listed
  rw [bind_ok (sees_run _ s)]
  cases h with
  | none =>
    rw [sees_cons hs, hclosing, beq_self_eq_true, if_pos rfl, ← hn]
    rw [List.nil_append] at hs
    rw [← hs]
    rfl
  | some hitems hlength =>
    obtain ⟨first, us, hts', hfirst⟩ := items_head hitems
    have unseen : s.sees (.symbol .rightParen) = false := by
      rw [hts', List.cons_append] at hs
      rw [sees_cons hs, beq_eq_false_iff_ne]
      exact ne_of_startsExpression hfirst (by decide)
    rw [unseen, if_neg Bool.false_ne_true]
    exact commaSeparated_takes .tooManyArguments StopsWhole (bound - 1)
      (fun hcomma => stopsWhole_cons (by rw [hcomma]; decide))
      (fun hreads hlength => he hreads (by omega)) (separated_of_readsItems hitems) (by omega)
      hlength ⟨stopsWhole_cons (by rw [hclosing]; decide), notNext_cons (by rw [hclosing]; decide)⟩
      hs hn

/-- Calls and properties are rounds of the loop that starts with the innermost operand. -/
theorem applied_rounds {n n' : Nat} {ts : List Token} {t : Expr} :
    ReadsExpr .applied n ts t n' → ts.length ≤ bound → ∀ {rest : List Token} {s : State},
      s.rest = ts ++ rest → s.nextId = n → ∃ first s₁, primary e s = .ok first s₁ ∧
        Relation.ReflTransGen (Round (application e)) (first, s₁)
          (t, { s with rest := rest, nextId := n' })
  | .primary h, hts, rest, s, hs, hn => ⟨t, _, primary_takes he h hts trivial hs hn, .refl⟩
  | .call h hopening harguments hclosing, hts, rest, s, hs, hn => by
    rename_i ts₀ callee n₁ opening us arguments closing
    simp only [List.length_append, List.length_cons, List.length_nil] at hts
    obtain ⟨first, s₁, hfirst, hrounds⟩ := applied_rounds h (by omega)
      (show s.rest = ts₀ ++ opening :: (us ++ closing :: rest) by rw [hs]; simp) hn
    refine ⟨first, s₁, hfirst, hrounds.tail ⟨?_, ?_⟩⟩
    · have run := arguments_takes he harguments (by omega) ⟨closing, rest, rfl, hclosing⟩
        (s := { s with rest := us ++ closing :: rest, nextId := n₁ }) rfl rfl
      unfold application
      dsimp only
      rw [bind_ok (accept_take rfl hopening), if_pos rfl, bind_ok run,
        bind_ok (expectMark_take _ rfl hclosing)]
      rfl
    · simp only [List.length_append, List.length_cons]
      omega
  | .get h hdot hname, hts, rest, s, hs, hn => by
    rename_i ts₀ object dot name
    simp only [List.length_append, List.length_cons, List.length_nil] at hts
    obtain ⟨first, s₁, hfirst, hrounds⟩ := applied_rounds h (by omega)
      (show s.rest = ts₀ ++ dot :: name :: rest by rw [hs]; simp) hn
    refine ⟨first, s₁, hfirst, hrounds.tail ⟨?_, ?_⟩⟩
    · unfold application
      dsimp only
      rw [bind_ok (accept_leave (notNext_cons (by rw [hdot]; decide))),
        if_neg Bool.false_ne_true, bind_ok (accept_take rfl hdot), if_pos rfl,
        bind_ok (expect_take _ rfl hname)]
      rfl
    · simp only [List.length_cons]
      omega

omit he in
/-- Nothing is applied where no application comes next. -/
theorem application_leave {s : State} (hstops : Stops [] s.rest) (callee : Expr) :
    application e callee s = .ok none s := by
  have next : ∀ kind, continues [] kind = true → NotNext kind s.rest := by
    intro kind hkind token htoken heq
    have := hstops token htoken
    rw [heq, hkind] at this
    cases this
  unfold application
  rw [bind_ok (accept_leave (next _ (by decide))), if_neg Bool.false_ne_true,
    bind_ok (accept_leave (next _ (by decide)))]
  rfl

theorem applied_takes {n n' : Nat} {ts : List Token} {t : Expr}
    (h : ReadsExpr .applied n ts t n') (hts : ts.length ≤ bound) :
    Takes (applied e) (Stops []) n ts t n' := by
  intro rest hstops s hs hn
  obtain ⟨first, s₁, hfirst, hrounds⟩ := applied_rounds he h hts hs hn
  unfold applied
  rw [bind_ok hfirst]
  exact iterate_of_rounds hrounds (application_leave hstops t)

omit he in
/-- The operators before an operand are read outermost first. -/
theorem prefixed_split {n n' : Nat} {ts : List Token} {t : Expr} :
    ReadsExpr .prefixed n ts t n' → ∃ operators us operand, ts = operators ++ us ∧
      (∀ operator ∈ operators, isPrefixOperator operator = true) ∧
      ReadsExpr .applied n us operand n' ∧ t = operators.foldr .unary operand
  | .applied h => ⟨[], ts, t, rfl, fun _ h => (List.not_mem_nil h).elim, h, rfl⟩
  | .unary hoperator h => by
    obtain ⟨operators, us, operand, rfl, hall, hus, rfl⟩ := prefixed_split h
    exact ⟨_ :: operators, us, operand, rfl, List.forall_mem_cons.mpr ⟨hoperator, hall⟩, hus, rfl⟩

theorem prefixed_takes {n n' : Nat} {ts : List Token} {t : Expr}
    (h : ReadsExpr .prefixed n ts t n') (hts : ts.length ≤ bound) :
    Takes (prefixed e) (Stops []) n ts t n' := by
  intro rest hstops s hs hn
  obtain ⟨operators, us, operand, rfl, hall, hus, rfl⟩ := prefixed_split h
  obtain ⟨first, vs, rfl, hfirst⟩ := reads_head hus
  have none_left : isPrefixOperator first = false := isPrefixOperator_of_startsOperand hfirst
  have taken : s.rest.takeWhile isPrefixOperator = operators := by
    rw [hs, List.append_assoc, List.takeWhile_append_of_pos hall, List.cons_append,
      List.takeWhile_cons_of_neg (by simp [none_left]), List.append_nil]
  have left : s.rest.dropWhile isPrefixOperator = first :: vs ++ rest := by
    rw [hs, List.append_assoc, List.dropWhile_append_of_pos hall, List.cons_append,
      List.dropWhile_cons_of_neg (by simp [none_left])]
  unfold prefixed
  rw [bind_ok (acceptWhile_run isPrefixOperator s), taken, left]
  rw [List.length_append] at hts
  rw [bind_ok (applied_takes he hus (by omega) hstops (s := { s with rest := first :: vs ++ rest })
    rfl hn)]
  rfl

omit he in
/-- Operators of a tier are rounds of the loop that starts with the leftmost operand. -/
theorem climb_rounds {tier : Tier} {tighter : List Tier}
    (apart : ∀ kind ∈ tier.operators, continues tighter kind = false)
    (operand : ∀ {n ts t n'}, ReadsExpr (.climb tighter) n ts t n' → ts.length ≤ bound →
      Takes (climb (prefixed e) tighter) (Stops tighter) n ts t n') {n n' : Nat}
    {ts : List Token} {t : Expr} :
    ReadsExpr (.climb (tier :: tighter)) n ts t n' → ts.length ≤ bound →
      ∀ {rest : List Token} {s : State}, Stops tighter rest → s.rest = ts ++ rest → s.nextId = n →
        ∃ first s₁, climb (prefixed e) tighter s = .ok first s₁ ∧
          Relation.ReflTransGen (Round (tier.extend (climb (prefixed e) tighter))) (first, s₁)
            (t, { s with rest := rest, nextId := n' })
  | .operand h, hts, rest, s, hstops, hs, hn => ⟨t, _, operand h hts hstops hs hn, .refl⟩
  | .operator h hoperator hright, hts, rest, s, hstops, hs, hn => by
    rename_i ts₀ left n₁ operator us right
    simp only [List.length_append, List.length_cons] at hts
    have stop : Stops tighter (operator :: (us ++ rest)) := by
      rintro _ ⟨⟩
      exact apart _ (List.contains_iff_mem.mp hoperator)
    obtain ⟨first, s₁, hfirst, hrounds⟩ := climb_rounds apart operand h (by omega) stop
      (s := s) (by rw [hs]; simp) hn
    refine ⟨first, s₁, hfirst, hrounds.tail ⟨?_, ?_⟩⟩
    · unfold Tier.extend
      dsimp only
      have taken := acceptIf_take (fun token => tier.operators.contains token.kind)
        (s := { s with rest := operator :: (us ++ rest), nextId := n₁ }) rfl hoperator
      rw [bind_ok taken]
      dsimp only
      rw [bind_ok (operand hright (by omega) hstops (s := { s with rest := us ++ rest, nextId := n₁ })
        rfl rfl)]
      rfl
    · simp only [List.length_cons, List.length_append]
      omega
  termination_by ts.length

omit he in
/-- A tier ends where none of its operators comes next. -/
theorem extend_leave {tier : Tier} {tighter : List Tier} {s : State}
    (hstops : Stops (tier :: tighter) s.rest) (operand : Parser Expr) (left : Expr) :
    tier.extend operand left s = .ok none s := by
  have declined := acceptIf_leave (fun token => tier.operators.contains token.kind) (s := s)
    fun token htoken => by
      have := hstops token htoken
      rw [continues, Bool.or_eq_false_iff] at this
      exact this.1
  unfold Tier.extend
  rw [bind_ok declined]
  rfl

theorem climb_takes {tiers : List Tier} (apart : Apart tiers) {n n' : Nat} {ts : List Token}
    {t : Expr} (h : ReadsExpr (.climb tiers) n ts t n') (hts : ts.length ≤ bound) :
    Takes (climb (prefixed e) tiers) (Stops tiers) n ts t n' := by
  induction tiers generalizing n n' ts t with
  | nil =>
    cases h with
    | prefixed h => exact prefixed_takes he h hts
  | cons tier tighter ih =>
    intro rest hstops s hs hn
    obtain ⟨first, s₁, hfirst, hrounds⟩ := climb_rounds apart.1 (fun h hts => ih apart.2 h hts) h
      hts hstops.tighter hs hn
    unfold climb
    rw [bind_ok hfirst]
    exact iterate_of_rounds hrounds (extend_leave hstops _ t)

/-- A target with its equals sign, and the value behind it. -/
private theorem target_takes {n n₁ n₂ : Nat} {ts us : List Token} {target value : Expr}
    {equal : Token} (htarget : ReadsExpr (.climb tiers) n ts target n₁)
    (hequal : equal.kind = .symbol .equal) (hvalue : ReadsExpr .whole n₁ us value n₂)
    (hts : (ts ++ equal :: us).length ≤ bound) {rest : List Token} (hrest : StopsWhole rest)
    {s : State} (hs : s.rest = ts ++ equal :: us ++ rest) (hn : s.nextId = n) :
    ∃ error, assignment e s =
      assignmentTo target error value { s with rest := rest, nextId := n₂ } := by
  simp only [List.length_append, List.length_cons] at hts
  have stop : Stops tiers (equal :: (us ++ rest)) := by
    rintro _ ⟨⟩
    rw [hequal]
    decide
  have run := climb_takes he tiers_apart htarget (by omega) stop
    (show s.rest = ts ++ equal :: (us ++ rest) by rw [hs]; simp) hn
  have run' := he hvalue (by omega) hrest (s := { s with rest := us ++ rest, nextId := n₁ }) rfl rfl
  unfold assignment
  rw [bind_ok run, bind_ok (get_run _), bind_ok (accept_take rfl hequal), if_pos rfl, bind_ok run']
  exact ⟨_, rfl⟩

theorem assignment_takes {n n' : Nat} {ts : List Token} {t : Expr}
    (h : ReadsExpr .whole n ts t n') (hts : ts.length ≤ bound) :
    Takes (assignment e) StopsWhole n ts t n' := by
  intro rest hrest s hs hn
  cases h with
  | loosest h =>
    unfold assignment
    rw [bind_ok (climb_takes he tiers_apart h hts hrest.1 hs hn), bind_ok (get_run _),
      bind_ok (accept_leave hrest.2), if_neg Bool.false_ne_true]
    rfl
  | assign htarget hequal hvalue =>
    obtain ⟨error, run⟩ := target_takes he htarget hequal hvalue hts hrest hs hn
    rw [run]
    rfl
  | set htarget hequal hvalue =>
    obtain ⟨error, run⟩ := target_takes he htarget hequal hvalue hts hrest hs hn
    rw [run]
    rfl

end

/-- Tokens that spell an expression are taken, if what follows does not go on with it. -/
theorem expression_takes {n n' : Nat} {ts : List Token} {t : Expr}
    (h : ReadsExpr .whole n ts t n') : Takes expression StopsWhole n ts t n' := by
  have upTo : ∀ depth, TakesBelow (expressionUpTo depth) depth := by
    intro depth
    induction depth with
    | zero => exact fun _ hts => absurd hts (Nat.not_lt_zero _)
    | succ depth ih => exact fun h hts => assignment_takes ih h (Nat.le_of_lt_succ hts)
  intro rest hrest s hs hn
  unfold expression
  rw [bind_ok (get_run s)]
  refine upTo _ h ?_ hrest hs hn
  rw [hs, List.length_append]
  omega

end Lox.Parser
