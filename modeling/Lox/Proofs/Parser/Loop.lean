import Lox.Proofs.Parser.Forward
import Mathlib.Logic.Relation

/-!
# Loops of a parser

A loop is bounded by the number of tokens that are left, which no reader of the grammar thinks of.
The lemmas here take the bound away. A loop that gives something has gone through its steps up to one
that declines, or until there was a step for each token; and a loop that can go from one result to
another by steps that take tokens does so.
-/

namespace Lox.Parser

variable {α : Type}

/-! ## Repeating a step -/

/-- What holds before a loop and is kept by its steps holds behind it. -/
theorem iterate_gives {step : α → Parser (Option α)} [∀ a, Forward (step a)]
    (P : State → α → Prop)
    (declined : ∀ {s a s'}, Gives (step a) s none s' → s' = s)
    (taken : ∀ {s a b s'}, P s a → Gives (step a) s (some b) s' → P s' b)
    {s s' : State} {a b : α} (start : P s a) (h : Gives (iterate step a) s b s') : P s' b := by
  have along : ∀ (left : List Token) {s a}, P s a →
      Gives (iterateAlong step left a) s b s' → P s' b := by
    intro left
    induction left with
    | nil =>
      intro s a hs h
      obtain ⟨rfl, rfl⟩ := pure_gives h
      exact hs
    | cons _ left ih =>
      intro s a hs h
      unfold iterateAlong at h
      have behind :=
        forward_option (x := pure a) (f := iterateAlong step left) inferInstance inferInstance
      obtain ⟨next, s₁, hstep, hrest⟩ := bind_gives h
      cases next with
      | none =>
        obtain ⟨rfl, rfl⟩ := pure_gives hrest
        exact declined hstep ▸ hs
      | some c => exact ih (taken hs hstep) hrest
  obtain ⟨_, _, hget, hloop⟩ := bind_gives h
  cases hget.run
  exact along _ start hloop

/-- One round of a loop: it takes a token at least. -/
def Round (step : α → Parser (Option α)) (x y : α × State) : Prop :=
  step x.1 x.2 = .ok (some y.1) y.2 ∧ y.2.rest.length < x.2.rest.length

/-- Rounds up to a result at which the step declines are what the loop does. -/
theorem iterate_of_rounds {step : α → Parser (Option α)} {a b : α} {s s' : State}
    (rounds : Relation.ReflTransGen (Round step) (a, s) (b, s'))
    (stop : step b s' = .ok none s') : iterate step a s = .ok b s' := by
  have along : ∀ (left : List Token), s.rest.length ≤ left.length →
      iterateAlong step left a s = .ok b s' := by
    -- From the front, since the first round is the first one that the loop makes.
    generalize hx : (a, s) = x at rounds
    induction rounds using Relation.ReflTransGen.head_induction_on generalizing a s with
    | refl =>
      cases hx
      rintro (_ | ⟨_, left⟩) _
      · rfl
      · unfold iterateAlong
        rw [bind_ok stop]
        rfl
    | head first _ ih =>
      rename_i c _
      subst hx
      rintro (_ | ⟨_, left⟩) hleft
      · exact absurd (Nat.lt_of_lt_of_le first.2 hleft) (Nat.not_lt_zero _)
      · unfold iterateAlong
        rw [bind_ok first.1]
        have shorter : c.2.rest.length < s.rest.length := first.2
        exact ih rfl left (by simp only [List.length_cons] at hleft; omega)
  unfold iterate
  rw [bind_ok (get_run s)]
  exact along _ (Nat.le_refl _)

/-! ## Collecting items -/

/-- What a collecting loop has read, by its items: it ends where the step declines, or when there
was an item for each token. -/
theorem collect_gives {step : Nat → Parser (Option α)} [∀ i, Forward (step i)]
    (P : Nat → State → List α → State → Prop)
    (declined : ∀ {i s s'}, Gives (step i) s none s' → P i s [] s')
    (full : ∀ i s, P i s [] s)
    (taken : ∀ {i s a s₁ as s₂}, Gives (step i) s (some a) s₁ → P (i + 1) s₁ as s₂ →
      P i s (a :: as) s₂)
    {s s' : State} {as : List α} (h : Gives (collect step) s as s') :
    P 0 s as s' ∧ (as.length = s.rest.length ∨
      ∃ i s₁, Gives (step i) s₁ none s') := by
  have along : ∀ (left : List Token) {i s as}, Gives (collectAlong step left i) s as s' →
      P i s as s' ∧ (as.length = left.length ∨ ∃ i s₁, Gives (step i) s₁ none s') := by
    intro left
    induction left with
    | nil =>
      intro i s as h
      obtain ⟨rfl, rfl⟩ := pure_gives h
      exact ⟨full i _, .inl rfl⟩
    | cons _ left ih =>
      intro i s as h
      unfold collectAlong at h
      have behind := forward_option (x := pure [])
        (f := fun a => do return a :: (← collectAlong step left (i + 1))) inferInstance inferInstance
      obtain ⟨next, s₁, hstep, hrest⟩ := bind_gives h
      cases next with
      | none =>
        obtain ⟨rfl, rfl⟩ := pure_gives hrest
        exact ⟨declined hstep, .inr ⟨i, s, hstep⟩⟩
      | some a =>
        obtain ⟨more, s₂, hmore, hpure⟩ := bind_gives hrest
        obtain ⟨rfl, rfl⟩ := pure_gives hpure
        obtain ⟨hP, hend⟩ := ih hmore
        refine ⟨taken hstep hP, hend.imp_left fun h => ?_⟩
        rw [List.length_cons, List.length_cons, h]
  obtain ⟨_, _, hget, hloop⟩ := bind_gives h
  cases hget.run
  exact along _ hloop

/-- Items that are read one behind the other, up to a place at which the step declines. -/
inductive Collects (step : Nat → Parser (Option α)) : Nat → State → List α → State → Prop
  | stop {i s} : step i s = .ok none s → Collects step i s [] s
  | item {i s a s₁ as s₂} : step i s = .ok (some a) s₁ → s₁.rest.length < s.rest.length →
      Collects step (i + 1) s₁ as s₂ → Collects step i s (a :: as) s₂

private theorem collectAlong_of_collects {step : Nat → Parser (Option α)} {i : Nat}
    {s s' : State} {as : List α} (h : Collects step i s as s') (left : List Token)
    (hleft : s.rest.length ≤ left.length) : collectAlong step left i s = .ok as s' := by
  induction h generalizing left with
  | stop hstop =>
    cases left with
    | nil => rfl
    | cons _ left =>
      unfold collectAlong
      rw [bind_ok hstop]
      rfl
  | item hitem shorter _ ih =>
    cases left with
    | nil => exact absurd (Nat.lt_of_lt_of_le shorter hleft) (Nat.not_lt_zero _)
    | cons _ left =>
      unfold collectAlong
      rw [bind_ok hitem]
      dsimp only
      rw [bind_ok (ih left (by simp only [List.length_cons] at hleft; omega))]
      rfl

/-- Such items are what the loop collects. -/
theorem collect_of_collects {step : Nat → Parser (Option α)} {s s' : State} {as : List α}
    (h : Collects step 0 s as s') : collect step s = .ok as s' := by
  unfold collect
  rw [bind_ok (get_run s)]
  exact collectAlong_of_collects h _ (Nat.le_refl _)

end Lox.Parser
