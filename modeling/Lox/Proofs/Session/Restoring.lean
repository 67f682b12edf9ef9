import Lox.Proofs.Machine.Contained
import Lox.Proofs.Session.Following

/-!
# The current frame comes back

Whatever a session is asked for, and however that ends, the global frame is the current one again.
Otherwise a fault in the middle of a block would leave the session there, and the next unit would bind
its variables in a frame that nothing finds any more. A unit that ran leaves the distances that it
found, and no others (`perform_spared`).
-/

namespace Lox

variable {α β : Type}

/-- The distances of a unit that passed its checks; of another, none. -/
def Checked.found (checked : Checked α) : Distances :=
  match checked.result with
  | .ok (_, distances) => distances
  | .error _ => []

theorem found_of_ok {checked : Checked α} {tree : α} {distances : Distances}
    (h : checked.result = .ok (tree, distances)) : checked.found = distances := by
  simp only [Checked.found, h]

theorem found_of_error {checked : Checked α} {diagnostics : List Diagnostic}
    (h : checked.result = .error diagnostics) : checked.found = [] := by
  simp only [Checked.found, h]

section

variable {s : Session}

/-- A unit takes over the distances that its checks found, and from there on changes nothing that runs
leave alone. -/
theorem perform_spared {checked : Checked α} {action : α → Run β}
    (hcurrent : s.machine.current = Frames.globalId)
    (haction : ∀ (tree : α) (m : Machine), m.current = Frames.globalId →
      m.Spared (Run.last (action tree m))) :
    (s.idle.adopt checked.found).Spared (s.perform checked action).2.machine := by
  cases hresult : checked.result with
  | error diagnostics =>
    rw [perform_rejected hresult, found_of_error hresult]
    exact .refl _
  | ok unit =>
    rw [found_of_ok hresult, perform_machine hresult]
    exact haction unit.1 (s.idle.adopt unit.2) hcurrent

theorem run_spared (hcurrent : s.machine.current = Frames.globalId) (fuel : Nat) (source : String) :
    (s.idle.adopt (checkProgram s.nextId source).found).Spared (s.run fuel source).2.machine :=
  perform_spared hcurrent fun program _ => Run.interpret_spared fuel program

theorem evaluate_spared (hcurrent : s.machine.current = Frames.globalId) (fuel : Nat)
    (source : String) :
    (s.idle.adopt (checkExpression s.nextId source).found).Spared
      (s.evaluate fuel source).2.machine :=
  perform_spared hcurrent fun value m _ => (Run.evaluate_contained fuel value).spared m

/-- Between two requests: outside of all blocks and functions, with an output of this limit. -/
structure Session.Rests (limit : Option Nat) (s : Session) : Prop where
  current : s.machine.current = Frames.globalId
  limit : s.machine.sink.limit = limit

/-- A request that finds a session at rest leaves it at rest. -/
theorem handle_rests {limit : Option Nat} (h : s.Rests limit) (request : Request) :
    (s.handle request).Rests limit := by
  cases request with
  | run fuel source =>
    have spared := run_spared h.current fuel source
    exact ⟨spared.current.trans h.current, spared.limit.trans h.limit⟩
  | evaluate fuel source =>
    have spared := evaluate_spared h.current fuel source
    exact ⟨spared.current.trans h.current, spared.limit.trans h.limit⟩
  | offer _ | input _ => exact ⟨h.current, h.limit⟩

theorem after_rests {limit : Option Nat} (h : s.Rests limit) (requests : List Request) :
    (requests.foldl Session.handle s).Rests limit := by
  induction requests generalizing s with
  | nil => exact h
  | cons first more ih => exact ih (handle_rests h first)

theorem start_rests (sink : Sink) (world : World) :
    (Session.start (.start sink world)).Rests sink.limit :=
  ⟨rfl, rfl⟩

end

/-- The run ends in the frame in which it began, whatever comes of it. -/
def Run.Restores (p : Run α) : Prop := ∀ m : Machine, (Run.last (p m)).current = m.current

theorem Contained.restores {p : Run α} (h : Contained p) : p.Restores := fun m => (h.spared m).current

/-- Expressions, statements, bodies in frames of their own and calls of every kind end in the frame in
which they began: with a value, at a `return`, at a fault, or where the output or the host failed. So
between all that a session is asked for, the global frame is current. -/
theorem current_restored (fuel : Nat) :
    (∀ e : Expr, (Run.evaluate fuel e).Restores) ∧
      (∀ t : Stmt, (Run.execute fuel t).Restores) ∧
      (∀ (frame : FrameId) (body : List Stmt),
        (Run.inFrame frame (Run.executeAll (Run.execute fuel) body)).Restores) ∧
      (∀ (closure : Closure) (arguments : List Value),
        (Run.callClosure (Run.execute fuel) closure arguments).Restores) ∧
      (∀ (cls : Class) (arguments : List Value),
        (Run.construct (Run.execute fuel) cls arguments).Restores) ∧
      (∀ (paren : Token) (f : HostFunction) (arguments : List Value),
        (Run.callHost paren f arguments).Restores) ∧
      (∀ (callee : Value) (paren : Token) (arguments : List Value),
        (Run.call (Run.execute fuel) callee paren arguments).Restores) ∧
      ∀ (sink : Sink) (world : World) (requests : List Request),
        (requests.foldl Session.handle (.start (.start sink world))).machine.current =
          Frames.globalId := by
  have execute := Run.execute_contained fuel
  refine ⟨?_, ?_, ?_, ?_, ?_, ?_, ?_, ?_⟩
  · exact fun e => (Run.evaluate_contained fuel e).restores
  · exact fun t => (execute t).restores
  · exact fun frame body => (Contained.inFrame frame (Contained.composing.executeAll execute body)).restores
  · exact fun closure arguments => (Contained.composing.callClosure execute closure arguments).restores
  · exact fun cls arguments => (Contained.composing.construct execute cls arguments).restores
  · exact fun paren f arguments => (Run.callHost_contained paren f arguments).restores
  · exact fun callee paren arguments =>
      (Contained.composing.call execute callee paren arguments).restores
  · exact fun sink world requests => (after_rests (start_rests sink world) requests).current

end Lox
