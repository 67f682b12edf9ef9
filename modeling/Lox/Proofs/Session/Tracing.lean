import Lox.Proofs.Session.Following
import Lox.Proofs.Trace.Evaluation

/-!
# Traces of sessions

A request has a trace: all that happens in the unit that it runs, or nothing if there is none or it is
rejected. The unit runs as it is traced (`Tracks`), so that what is known of traced runs says how it
ends (`perform_settles`). One request after the other, a session has one long trace (`History.moments`).
-/

namespace Lox

variable {α β : Type}

/-- What happens in the run of a checked unit. -/
def Checked.moments (checked : Checked α) (traced : α → Traced β) (idle : Machine) : List Moment :=
  match checked.result with
  | .ok (tree, distances) => (traced tree).trace (idle.adopt distances)
  | .error _ => []

/-- What happens while a request is carried out. -/
def Session.moments (session : Session) : Request → List Moment
  | .run fuel source =>
    (checkProgram session.nextId source).moments (Traced.executeProgram fuel) session.idle
  | .evaluate fuel source =>
    (checkExpression session.nextId source).moments (Traced.evaluate fuel) session.idle
  | .offer _ | .input _ => []

/-- What happens while one request after the other is carried out. -/
def History.moments (h : History) : List Request → List Moment
  | [] => []
  | request :: more => h.session.moments request ++ (h.handle request).moments more

/-- What happens where a single program is run is what happens in its statements. -/
theorem History.moments_run {h : History} {source : String} {program : List Stmt} {distances : Distances}
    (hresult : (checkProgram h.session.nextId source).result = .ok (program, distances)) (fuel : Nat) :
    h.moments [.run fuel source] =
      (Traced.executeProgram fuel program).trace (h.session.idle.adopt distances) := by
  show Checked.moments _ _ _ ++ [] = _
  simp only [List.append_nil, Checked.moments, hresult]

/-! ## How traced units end -/

/-- The action runs as it is traced. Where it stops, another frame may be made current. -/
structure Tracks (back : Machine → FrameId) (traced : α → Traced β) (action : α → Run β) : Prop where
  done : ∀ {tree m b m'}, (traced tree).run m = .ok b m' → action tree m = .ok b m'
  stopped : ∀ {tree m interrupt m'}, (traced tree).run m = .error interrupt m' →
    action tree m = .error interrupt { m' with current := back m' }

/-- Where a program stops, the global frame is made current. -/
theorem interpret_tracks (fuel : Nat) :
    Tracks (fun _ => Frames.globalId) (Traced.executeProgram fuel) (Run.interpret fuel) where
  done hrun := by rw [← Traced.executeProgram_run, Run.grounded, hrun]
  stopped hrun := by rw [← Traced.executeProgram_run, Run.grounded, hrun]

theorem evaluate_tracks (fuel : Nat) :
    Tracks (·.current) (Traced.evaluate fuel) (Run.evaluate fuel) where
  done hrun := by rwa [← Traced.evaluate_run]
  stopped hrun := by rwa [← Traced.evaluate_run]

/-- How a unit ends, and the session afterwards. Where a run stops, another frame may be made current. -/
def settle (back : Machine → FrameId) (nextId : OccurrenceId) :
    EStateM.Result Interrupt Machine β → Outcome β × Session
  | .ok b m => (.done b, ⟨m, nextId⟩)
  | .error interrupt m => (.ofInterrupt interrupt, ⟨{ m with current := back m }, nextId⟩)

/-- A unit that runs as it is traced ends as the traced run does. -/
theorem perform_settles {back : Machine → FrameId} {traced : α → Traced β} {action : α → Run β}
    (h : Tracks back traced action) {session : Session} {checked : Checked α} {tree : α}
    {distances : Distances} (hresult : checked.result = .ok (tree, distances)) :
    session.perform checked action =
      settle back checked.nextId ((traced tree).run (session.idle.adopt distances)) := by
  cases hrun : (traced tree).run (session.idle.adopt distances) with
  | ok b m => exact perform_done hresult (h.done hrun)
  | error interrupt m => exact perform_interrupted hresult (h.stopped hrun)

end Lox
