import Lox.Proofs.Parser.Noticing

/-!
# Tokens that expressions leave alone

Semicolons and `var` stand in statements only. No run of the parser of expressions takes one of them,
whether it succeeds or fails (`spares_expression`).
-/

namespace Lox.Parser

variable {α β : Type}

/-- What never stands inside an expression. -/
def foreign : List TokenKind := [.symbol .semicolon, .keyword .varKw]

/-- The run takes no foreign token. -/
def Spares (p : Parser α) (s : State) : Prop :=
  ∃ taken, s.rest = taken ++ (last (p s)).rest ∧ ∀ token ∈ taken, token.kind ∉ foreign

namespace Spares

variable {p q : Parser α} {f : α → Parser β} {s : State}

theorem still (h : (last (p s)).rest = s.rest) : Spares p s := ⟨[], h.symm, nofun⟩

theorem bind (hp : Spares p s) (hf : ∀ a t, Spares (f a) t) : Spares (p >>= f) s := by
  obtain ⟨taken, htaken, hnone⟩ := hp
  cases hrun : p s with
  | error e t =>
    rw [hrun] at htaken
    exact ⟨taken, by rw [bind_error hrun]; exact htaken, hnone⟩
  | ok a t =>
    rw [hrun] at htaken
    have htaken : s.rest = taken ++ t.rest := htaken
    obtain ⟨more, hmore, hnone'⟩ := hf a t
    refine ⟨taken ++ more, ?_, ?_⟩
    · rw [bind_ok hrun, htaken, hmore, List.append_assoc]
    · exact List.forall_mem_append.mpr ⟨hnone, hnone'⟩

theorem ite {c : Prop} [Decidable c] (hp : Spares p s) (hq : Spares q s) :
    Spares (if c then p else q) s := by
  split
  · exact hp
  · exact hq

/-- What takes one token, or none. -/
theorem one (h : (last (p s)).rest = s.rest ∨
    ∃ token rest, s.rest = token :: rest ∧ token.kind ∉ foreign ∧
      (last (p s)).rest = rest) : Spares p s := by
  obtain h | ⟨token, rest, hs, hkind, hlast⟩ := h
  · exact still h
  · refine ⟨[token], by rw [hlast, hs]; rfl, fun other hother => ?_⟩
    rwa [List.mem_singleton.mp hother]

/-- Looking at the next token takes nothing. -/
theorem here {f : Token → Parser β} (h : Spares (f s.here) s) : Spares (Parser.here >>= f) s := h

theorem skip (h : s.here.kind ∉ foreign) : Spares Parser.skip s := by
  refine one ?_
  cases hs : s.rest with
  | nil => exact .inl (congrArg List.tail hs)
  | cons token rest =>
    rw [here_cons hs] at h
    exact .inr ⟨token, rest, rfl, h, congrArg List.tail hs⟩

theorem acceptIf {test : Token → Bool} (h : ∀ token, test token = true →
    token.kind ∉ foreign) : Spares (Parser.acceptIf test) s := by
  refine one ?_
  rw [acceptIf_run]
  split
  · exact .inl rfl
  · next token rest hs =>
    split
    · next htest => exact .inr ⟨token, rest, hs, h token htest, rfl⟩
    · exact .inl rfl

theorem accept {kind : TokenKind} (h : kind ∉ foreign) : Spares (Parser.accept kind) s := by
  refine one ?_
  rw [accept_run]
  split
  · next hsees =>
    obtain ⟨token, rest, hs, hkind⟩ := exists_of_sees hsees
    exact .inr ⟨token, rest, hs, hkind ▸ h, congrArg List.tail hs⟩
  · exact .inl rfl

theorem expect {kind : TokenKind} (h : kind ∉ foreign) (what : Expectation) :
    Spares (Parser.expect kind what) s := by
  refine one ?_
  rw [expect_run]
  split
  · next hsees =>
    obtain ⟨token, rest, hs, hkind⟩ := exists_of_sees hsees
    exact .inr ⟨token, rest, hs, hkind ▸ h, congrArg List.tail hs⟩
  · exact .inl rfl

theorem acceptWhile {test : Token → Bool} (h : ∀ token, test token = true →
    token.kind ∉ foreign) : Spares (Parser.acceptWhile test) s :=
  ⟨s.rest.takeWhile test, List.takeWhile_append_dropWhile.symm,
    fun _ hmem => h _ (List.mem_takeWhile_imp hmem)⟩

theorem iterate {step : α → Parser (Option α)} (h : ∀ a s, Spares (step a) s) (a : α) :
    Spares (Parser.iterate step a) s := by
  have along : ∀ (left : List Token) a s, Spares (iterateAlong step left a) s := by
    intro left
    induction left with
    | nil => exact fun a s => still rfl
    | cons _ left ih =>
      intro a s
      refine (h a s).bind fun next t => ?_
      cases next with
      | none => exact still rfl
      | some b => exact ih b t
  exact along s.rest a s

theorem collect {step : Nat → Parser (Option α)} (h : ∀ i s, Spares (step i) s) :
    Spares (Parser.collect step) s := by
  have along : ∀ (left : List Token) i s, Spares (collectAlong step left i) s := by
    intro left
    induction left with
    | nil => exact fun i s => still rfl
    | cons _ left ih =>
      intro i s
      refine (h i s).bind fun next t => ?_
      cases next with
      | none => exact still rfl
      | some a => exact (ih (i + 1) t).bind fun _ _ => still rfl
  exact along s.rest 0 s

theorem listed {issue : SyntaxIssue} {item : Parser α} (h : ∀ s, Spares item s) :
    Spares (Parser.listed issue item) s := by
  have numbered : ∀ index s, Spares (numbered issue item index) s := fun index s => by
    refine ite ?_ (h s)
    exact bind (p := report issue) (still rfl) fun _ t => h t
  refine bind (p := sees _) (still rfl) fun _ t => ite (still rfl) ?_
  rw [commaSeparated_eq]
  refine (numbered 0 t).bind fun _ t => bind (collect fun index s => ?_) fun _ _ => still rfl
  exact (accept (by decide)).bind fun _ t =>
    ite ((numbered _ t).bind fun _ _ => still rfl) (still rfl)

end Spares

section

variable {e : Parser Expr} (he : ∀ s, Spares e s)

include he

theorem spares_primary (s : State) : Spares (primary e) s := by
  have constant : ∀ {tree}, s.here.kind ∉ foreign → Spares (leaf tree) s :=
    fun h => (Spares.skip h).bind fun _ _ => .still rfl
  have named : ∀ {tree : OccurrenceId → Expr}, s.here.kind ∉ foreign →
      Spares (do leaf (tree (← freshId))) s := fun h => by
    obtain ⟨taken, htaken, hnone⟩ := Spares.skip h
    exact ⟨taken, htaken, hnone⟩
  refine Spares.here ?_
  split
  case h_8 hkind =>
    exact (Spares.skip (by rw [hkind]; decide)).bind fun _ t => (he t).bind fun _ t =>
      (Spares.expect (by decide) _).bind fun _ _ => .still rfl
  case h_9 => exact .still (p := fail _) rfl
  case h_6 hkind | h_7 hkind => exact named (by rw [hkind]; decide)
  all_goals
    next hkind => exact constant (by simp [hkind, foreign])

theorem spares_prefixed (s : State) : Spares (prefixed e) s := by
  have operators : ∀ token, isPrefixOperator token = true → token.kind ∉ foreign := by
    intro token htest
    rw [isPrefixOperator, Bool.or_eq_true_iff] at htest
    obtain htest | htest := htest <;> rw [eq_of_beq htest] <;> decide
  refine (Spares.acceptWhile operators).bind fun _ t => ?_
  refine Spares.bind (p := applied e) ((spares_primary he t).bind fun first t => ?_) fun _ _ => .still rfl
  refine Spares.iterate (fun callee s => ?_) first
  refine (Spares.accept (by decide)).bind fun _ t => .ite ?_ ?_
  · exact (Spares.listed he).bind fun _ t => (Spares.expect (by decide) _).bind fun _ _ => .still rfl
  · refine (Spares.accept (by decide)).bind fun _ t => .ite ?_ (.still rfl)
    exact (Spares.expect (by decide) _).bind fun _ _ => .still rfl

theorem spares_climb : ∀ tiers : List Tier,
    (∀ tier ∈ tiers, ∀ kind ∈ tier.operators, kind ∉ foreign) → ∀ s,
      Spares (climb (prefixed e) tiers) s
  | [], _, s => spares_prefixed he s
  | tier :: tighter, htiers, s => by
    obtain ⟨htier, htighter⟩ := List.forall_mem_cons.mp htiers
    have operand := spares_climb tighter htighter
    refine (operand s).bind fun first t => .iterate (fun left s => ?_) first
    refine (Spares.acceptIf fun token htest =>
      htier token.kind (List.contains_iff_mem.mp htest)).bind fun taken t => ?_
    cases taken with
    | none => exact .still rfl
    | some operator => exact (operand t).bind fun _ _ => .still rfl

theorem spares_assignment (s : State) : Spares (assignment e) s := by
  refine (spares_climb he tiers (by decide) s).bind fun target t => ?_
  refine Spares.bind (p := (get : Parser State)) (.still rfl) fun before t => ?_
  refine (Spares.accept (by decide)).bind fun _ t => .ite ((he t).bind fun value t => ?_) (.still rfl)
  unfold assignmentTo
  split <;> exact .still rfl

end

theorem spares_expressionUpTo (depth : Nat) : ∀ s, Spares (expressionUpTo depth) s := by
  induction depth with
  | zero => exact fun s => .still rfl
  | succ depth ih => exact spares_assignment ih

theorem spares_expression (s : State) : Spares expression s :=
  spares_expressionUpTo (s.rest.length + 1) s

end Lox.Parser
