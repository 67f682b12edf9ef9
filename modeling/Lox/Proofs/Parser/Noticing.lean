import Lox.Proofs.Parser.Program

/-!
# The errors of a run

A run notices errors in two ways: it notes one and goes on, or it ends with one. Both are found behind
the errors that were there before (`noticed`), in the order of the run. What a parser is asked about
whole lists of tokens is whether it noticed anything and what that was (`run_result`).
-/

namespace Lox

/-- An error that says what is expected at its token. -/
def SyntaxError.IsExpectation (e : SyntaxError) : Prop := ∃ what, e.issue = .expected what

/-- The errors that are reported of a source. -/
def Parser.Outcome.errors {α : Type} (outcome : Outcome α) : List SyntaxError :=
  match outcome.result with
  | .ok _ => []
  | .error errors => errors

end Lox

namespace Lox.Parser

variable {α β : Type}

/-- The errors that a run from this state has noticed, the one it ends with last. -/
def noticed (s : State) : EStateM.Result SyntaxError State α → List SyntaxError
  | .ok _ t => t.errors.drop s.errors.length
  | .error e t => t.errors.drop s.errors.length ++ [e]

theorem noticed_ok {s t : State} {a : α} {new : List SyntaxError} (h : t.errors = s.errors ++ new) :
    noticed s (.ok a t : EStateM.Result SyntaxError State α) = new := by
  rw [noticed, h, List.drop_left]

theorem noticed_error {s t : State} {e : SyntaxError} {new : List SyntaxError}
    (h : t.errors = s.errors ++ new) :
    noticed s (.error e t : EStateM.Result SyntaxError State α) = new ++ [e] := by
  rw [noticed, h, List.drop_left]

/-- A run that changes no errors and succeeds notices nothing. -/
theorem noticed_quiet {s t : State} {a : α} (h : t.errors = s.errors) :
    noticed s (.ok a t : EStateM.Result SyntaxError State α) = [] :=
  noticed_ok (h.trans (List.append_nil _).symm)

section

variable {p : Parser α} [Forward p] {s t : State}

theorem errors_of_ok {a : α} (h : p s = .ok a t) : t.errors = s.errors ++ noticed s (p s) := by
  obtain ⟨new, hnew⟩ := (Forward.of_ok h).errors
  rw [h, noticed_ok hnew.symm, hnew]

theorem errors_of_error {e : SyntaxError} (h : p s = .error e t) :
    t.errors ++ [e] = s.errors ++ noticed s (p s) := by
  obtain ⟨new, hnew⟩ := (Forward.of_error h).errors
  rw [h, noticed_error hnew.symm, ← hnew, List.append_assoc]

/-- A parser that succeeds and notices nothing gives something. -/
theorem gives_of_quiet (h : noticed s (p s) = []) {a : α} (hp : p s = .ok a t) : Gives p s a t :=
  ⟨hp, by rw [errors_of_ok hp, h, List.append_nil]⟩

end

section

variable {p : Parser α} {f : α → Parser β} [Forward p] [∀ a, Forward (f a)] {s t : State}

theorem noticed_bind_ok {a : α} (h : p s = .ok a t) :
    noticed s ((p >>= f) s) = noticed s (p s) ++ noticed t (f a t) := by
  have first := errors_of_ok h
  rw [bind_ok h]
  cases hf : f a t with
  | ok b u =>
    refine (noticed_ok ?_).trans (by rw [← hf])
    rw [errors_of_ok hf, first, List.append_assoc]
  | error e u =>
    obtain ⟨new, hnew⟩ := (Forward.of_error hf).errors
    rw [noticed_error hnew.symm, ← List.append_assoc]
    exact noticed_error (by rw [← hnew, first, List.append_assoc])

omit [Forward p] [∀ a, Forward (f a)] in
theorem noticed_bind_error {e : SyntaxError} (h : p s = .error e t) :
    noticed s ((p >>= f) s) = noticed s (p s) := by
  rw [bind_error h, h]
  rfl

/-- The first error of a parser is the first one of what starts with it. -/
theorem head_noticed_bind {e : SyntaxError} (h : e ∈ (noticed s (p s)).head?) :
    e ∈ (noticed s ((p >>= f) s)).head? := by
  cases hrun : p s with
  | ok a t =>
    rw [noticed_bind_ok hrun, List.head?_append, Option.mem_def.mp h]
    rfl
  | error e' t =>
    rw [noticed_bind_error hrun]
    exact h

theorem noticed_bind_ne_nil (h : noticed s (p s) ≠ []) : noticed s ((p >>= f) s) ≠ [] := by
  obtain ⟨e, more, hcons⟩ := List.exists_cons_of_ne_nil h
  have first : e ∈ (noticed s ((p >>= f) s)).head? := head_noticed_bind (by rw [hcons]; rfl)
  intro hnil
  rw [hnil] at first
  cases first

end

theorem recovering_error {p : Parser α} {s t : State} {e : SyntaxError} (h : p s = .error e t) :
    recovering p s = .ok none { t with rest := afterOffence t.rest, errors := t.errors ++ [e] } := by
  rw [recovering, h]

/-- Recovery notes the error with which the parser fails. -/
theorem noticed_recovering {p : Parser α} [Forward p] (s : State) :
    noticed s (recovering p s) = noticed s (p s) := by
  cases hp : p s with
  | ok a t =>
    rw [recovering_ok hp]
    rfl
  | error e t =>
    rw [recovering_error hp]
    refine (noticed_ok ?_).trans (by rw [← hp])
    exact errors_of_error hp

/-- What is made of a list of tokens is lost if anything is noticed, and then that is reported. -/
theorem run_result (p : Parser α) [Forward p] (n : OccurrenceId) (tokens : List Token) :
    let noted := noticed (State.start n tokens) (p (State.start n tokens))
    (noted ≠ [] → (p.run n tokens).result = .error noted) ∧
      (noted = [] → ∃ a, (p.run n tokens).result = .ok a) := by
  intro noted
  unfold Parser.run
  cases hp : p (State.start n tokens) with
  | ok a t =>
    have errors : t.errors = noted := errors_of_ok hp
    dsimp only
    rw [errors]
    refine ⟨fun h => ?_, fun h => ⟨a, ?_⟩⟩
    · rw [List.isEmpty_eq_false_iff.mpr h]
      rfl
    · rw [h]
      rfl
  | error e t =>
    have errors : t.errors ++ [e] = noted := errors_of_error hp
    refine ⟨fun _ => congrArg Except.error errors, fun h => ?_⟩
    rw [h] at errors
    exact absurd errors (List.append_ne_nil_of_right_ne_nil _ (List.cons_ne_nil e []))

theorem run_errors {p : Parser α} {n : OccurrenceId} {tokens : List Token} {a : α} {t : State}
    (h : p (State.start n tokens) = .ok a t) : (p.run n tokens).errors = t.errors := by
  unfold Parser.run
  rw [h]
  dsimp only
  cases herrors : t.errors <;> rfl

theorem run_of_quiet {p : Parser α} {n : OccurrenceId} {tokens : List Token} {a : α} {t : State}
    (h : p (State.start n tokens) = .ok a t) (quiet : t.errors = []) :
    (p.run n tokens).result = .ok a := by
  unfold Parser.run
  rw [h]
  dsimp only
  rw [quiet]
  rfl

theorem run_eq_of_ok {p : Parser α} {n : OccurrenceId} {tokens : List Token} {a b : α} {t : State}
    (h : p (State.start n tokens) = .ok a t) (hb : (p.run n tokens).result = .ok b) :
    b = a ∧ t.errors = [] := by
  unfold Parser.run at hb
  rw [h] at hb
  dsimp only at hb
  split at hb
  · next quiet => exact ⟨(Except.ok.inj hb).symm, List.isEmpty_iff.mp quiet⟩
  · cases hb

end Lox.Parser
