import Lox.Proofs.Parser.Relabeling
import Lox.Proofs.Resolution.Relabeling
import Lox.Session

/-!
# Checks do not depend on the numbering

A unit gets the next free identities for its occurrences, and nothing else of the session goes into its
checks. From another number on, it passes with the same tree and the same distances up to the identities,
or is rejected with the same diagnostics (`checkProgram_add`, `checkExpression_add`).
-/

namespace Lox

/-- A checked unit whose identities begin later. -/
def Checked.renumber {α : Type} (step : Nat) (f : α → α) (checked : Checked α) : Checked α where
  result := match checked.result with
    | .ok (tree, distances) => .ok (f tree, distances.map fun (id, d) => (id + step, d))
    | .error diagnostics => .error diagnostics
  nextId := checked.nextId + step

/-- The end of a source is among its tokens. -/
theorem exists_eof (source : String) : ∃ token ∈ tokensOf source, token.kind = .eof := by
  refine ⟨.eof (linesOf source), ?_, rfl⟩
  rw [tokensOf_eq_wordsOf]
  exact List.mem_append_right _ List.mem_cons_self

/-- If identities show in neither parsing nor resolution, they do not show in the check. -/
theorem check_add {α : Type} {parse : OccurrenceId → List Token → Parser.Outcome α}
    {resolve : α → Except (List ScopeError) Distances} {f : Relabeling → α → α}
    (hparse : ∀ (r : Relabeling), r.IsSteady → ∀ n tokens, (∃ token ∈ tokens, token.kind = .eof) →
      parse (r.id n) (tokens.map r.token) = (parse n tokens).relabel r (f r))
    (hresolve : ∀ (r : Relabeling) tree,
      resolve (f r tree) = Resolution.relabelFound r (resolve tree))
    (n step : OccurrenceId) (source : String) :
    check parse resolve (n + step) source =
      (check parse resolve n source).renumber step (f (.shift step id)) := by
  have parsed := hparse (.shift step id) (Relabeling.steady_shift step id) n _ (exists_eof source)
  rw [show (Relabeling.shift step id).token = id from rfl, List.map_id,
    show (Relabeling.shift step id).id n = n + step from rfl] at parsed
  unfold check
  rw [parsed]
  cases hresult : parse n (tokensOf source) with
  | mk result nextId =>
    cases result with
    | error errors =>
      have same : Parser.relabelError (.shift step id) = id := rfl
      simp only [Parser.Outcome.relabel, same, List.map_id]
      rfl
    | ok tree =>
      simp only [Parser.Outcome.relabel, hresolve]
      cases resolve tree with
      | error errors =>
        have same : (fun error : ScopeError =>
            { error with token := (Relabeling.shift step id).token error.token }) = id := rfl
        simp only [Resolution.relabelFound, same, List.map_id]
        rfl
      | ok distances =>
        simp only [Resolution.relabelFound]
        cases (lexicalIssuesOf source).isEmpty <;> rfl

/-- A program is checked from a later number on as it is from an earlier one. -/
theorem checkProgram_add (n step : OccurrenceId) (source : String) :
    checkProgram (n + step) source =
      (checkProgram n source).renumber step (Stmt.relabelAll (.shift step id)) :=
  check_add (fun _ hr n _ => parseProgram_relabel hr n) Resolution.resolveProgram_relabel n step source

/-- An expression is checked from a later number on as it is from an earlier one. -/
theorem checkExpression_add (n step : OccurrenceId) (source : String) :
    checkExpression (n + step) source =
      (checkExpression n source).renumber step (Expr.relabel (.shift step id)) :=
  check_add (fun _ hr n _ => parseExpression_relabel hr n) Resolution.resolveExpression_relabel n step
    source

end Lox
