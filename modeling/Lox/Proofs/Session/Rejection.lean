import Lox.Proofs.Session.Twins

/-!
# Rejected units

A unit that does not pass its checks leaves nothing behind but larger numbers for the occurrences to
come, and those show nowhere. So it could as well not have been there: whatever else a session is asked
for, all that is seen of it stays the same if rejected units are left out (`rejected_inert`).
-/

namespace Lox

namespace Session

/-- The unit does not pass its checks. -/
def Rejects (session : Session) (request : Request) : Prop :=
  ∃ diagnostics, (session.observe request).map (·.outcome) =
    some (.failed (.rejected diagnostics))

/-- What is seen of the marked ones of some requests. -/
def observations : Session → List (Request × Bool) → List Observation
  | _, [] => []
  | session, (request, marked) :: more =>
    (if marked then (session.observe request).toList else []) ++
      observations (session.handle request) more

/-- Those of the requests that are not marked are rejected, each where it stands. -/
def RejectsUnmarked : Session → List (Request × Bool) → Prop
  | _, [] => True
  | session, (request, marked) :: more =>
    (marked = false → session.Rejects request) ∧ (session.handle request).RejectsUnmarked more

end Session

section

variable {α β : Type} {s s' : Session}

/-- What ends as rejected was not run. -/
theorem result_of_rejected {checked : Checked α} {action : α → Run β}
    {shown : Heap → β → Option String} {diagnostics : List Diagnostic}
    (h : (Observation.of shown (s.perform checked action)).outcome =
      .failed (.rejected diagnostics)) : checked.result = .error diagnostics := by
  cases hresult : checked.result with
  | error diagnostics' =>
    rw [perform_rejected hresult] at h
    injection h with h
    injection h with h
    rw [h]
  | ok unit =>
    cases hrun : action unit.1 (s.idle.adopt unit.2) with
    | ok b m =>
      rw [perform_done hresult hrun] at h
      nomatch h
    | error interrupt m =>
      rw [perform_interrupted hresult hrun] at h
      cases interrupt <;> nomatch h

/-- A rejected unit leaves an idle session with larger numbers behind. -/
theorem handle_rejected {request : Request} (h : s.Rejects request) :
    ∃ n, s.nextId ≤ n ∧ s.handle request = ⟨s.idle, n⟩ := by
  obtain ⟨diagnostics, houtcome⟩ := h
  cases request with
  | run fuel source =>
    injection houtcome with houtcome
    refine ⟨_, nextId_le_checkProgram s.nextId source, ?_⟩
    exact congrArg Prod.snd (perform_rejected (result_of_rejected houtcome) (Run.interpret fuel))
  | evaluate fuel source =>
    injection houtcome with houtcome
    refine ⟨_, nextId_le_checkExpression s.nextId source, ?_⟩
    exact congrArg Prod.snd (perform_rejected (result_of_rejected houtcome) (Run.evaluate fuel))
  | offer offered => nomatch houtcome
  | input bytes => nomatch houtcome

/-- Of twins, one can be spared the rejected units. -/
theorem observations_twins (h : s.Twins s') {script : List (Request × Bool)}
    (hblind : ∀ step ∈ script, step.1.Blind) (hrejects : s.RejectsUnmarked script) :
    s'.observations (script.filter (·.2)) = s.observations script := by
  induction script generalizing s s' with
  | nil => rfl
  | cons step more ih =>
    obtain ⟨request, marked⟩ := step
    obtain ⟨hrequest, hmore⟩ := List.forall_mem_cons.mp hblind
    obtain ⟨hfirst, hrest⟩ := hrejects
    cases marked with
    | true =>
      obtain ⟨hnext, hseen⟩ := handle_twins h hrequest
      show (s'.observe request).toList ++ _ = (s.observe request).toList ++ _
      rw [hseen]
      exact congrArg (_ ++ ·) (ih hnext hmore hrest)
    | false =>
      obtain ⟨n, hle, hafter⟩ := handle_rejected (hfirst rfl)
      refine ih ?_ hmore hrest
      rw [hafter]
      exact h.later rfl rfl hle (Nat.le_refl _)

end

/-- A rejected unit prints nothing and leaves all of the machine as it is. If functions of the host do
not see code, then leaving out any rejected units changes nothing that is seen of all the others. -/
theorem rejected_inert :
    (∀ (session : Session) (request : Request), session.Rejects request →
      (session.handle request).printed = "" ∧ (session.handle request).machine = session.idle) ∧
    ∀ (sink : Sink) (world : World) (script : List (Request × Bool)),
      (∀ step ∈ script, step.1.Blind) →
      (Session.start (.start sink world)).RejectsUnmarked script →
      (Session.start (.start sink world)).observations (script.filter (·.2)) =
        (Session.start (.start sink world)).observations script := by
  refine ⟨fun session request hrejects => ?_, fun sink world script hblind hrejects => ?_⟩
  · obtain ⟨n, -, hafter⟩ := handle_rejected hrejects
    rw [hafter]
    exact ⟨rfl, rfl⟩
  · exact observations_twins (start_twins sink world) hblind hrejects

/-- A lone parenthesis is rejected, and so what is printed behind it is printed without it as well. -/
theorem rejected_inert_parenthesis :
    (Session.start (.start (.start none) (.start []))).Rejects (.run 9 ")") ∧
      (Session.start (.start (.start none) (.start []))).observations
          [(.run 9 "print nil;", true)] =
        (Session.start (.start (.start none) (.start []))).observations
          [(.run 9 ")", false), (.run 9 "print nil;", true)] := by
  have rejects : (Session.start (.start (.start none) (.start []))).Rejects (.run 9 ")") := by
    have result : (checkProgram 0 ")").result =
        .error [(⟨2, ⟨.symbol .rightParen, ")", 1⟩, .expected .expression⟩ : SyntaxError).diagnostic] := by
      unfold checkProgram check tokensOf lexicalIssuesOf
      rw [itemsOf_eq_itemsWithin]
      rfl
    have ended : Session.run 9 (.start (.start (.start none) (.start []))) ")" = _ :=
      perform_rejected result (Run.interpret 9)
    exact ⟨_, congrArg (fun ended => some (Observation.of (fun _ _ => none) ended).outcome) ended⟩
  refine ⟨rejects, rejected_inert.2 _ _ [(.run 9 ")", false), (.run 9 "print nil;", true)] ?_ ?_⟩
  · simp [Request.Blind]
  · exact ⟨fun _ => rejects, nofun, trivial⟩

end Lox
