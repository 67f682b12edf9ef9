import Lox.Proofs.Session.Paths
import Lox.Proofs.Trace.Growth

/-!
# Frames of a session

Whatever a session is asked for, its frames are a tree around the global frame that only grows
(`frames_rooted`). From the current frame and from the frame of each function there is, the way outwards
leads to the global frame, so that names are found or not after finitely many steps. And from one machine
to the next nothing is taken away: not a frame or what encloses it, not a name in a frame or in an object,
and not the class of an object.
-/

namespace Lox

open Machine

variable {α β : Type} {m m' : Machine}

/-! ## Functions that lead home -/

/-- The function is the value itself, or a method of the class that the value is. -/
inductive Value.Holds : Value → Closure → Prop
  | function (f : Function) : Holds (.function f) f.closure
  | method {c : Class} {name : String} {method : Closure} : c.methods.find? name = some method →
      Holds (.cls c) method

namespace Machine

/-- The frames of all functions that the value holds lead home. -/
def LeadsHome (m : Machine) (value : Value) : Prop :=
  ∀ closure, value.Holds closure → m.frames.LeadsHome closure.frame

/-- The current frame leads home, and so do all functions that are bound to a name, held by a field, or
methods of the class of an object. -/
structure AllLeadHome (m : Machine) : Prop where
  current : m.frames.LeadsHome m.current
  bound : ∀ frame name value, m.frames.local? frame name = some value → m.LeadsHome value
  fields : ∀ id name value, m.heap.field? id name = some value → m.LeadsHome value
  classes : ∀ id object, m.heap.object? id = some object → m.LeadsHome (.cls object.cls)

theorem Fit.holds {value : Value} (h : m.Fit value) {closure : Closure} (hholds : value.Holds closure) :
    m.ClosureFit closure := by
  cases hholds with
  | function f => exact h
  | method hmethod => exact h _ _ hmethod

/-- What fits an orderly machine leads home, then and on all machines that have grown from it. -/
theorem Orderly.leadsHome (h : m.Orderly) {value : Value} (hvalue : m.Fit value) (hgrows : m.Grows m') :
    m'.LeadsHome value :=
  fun _ hholds => h.rooted.leadsHome_later hgrows.enclosing_eq (hvalue.holds hholds).there

theorem Orderly.allLeadHome (h : m.Orderly) : m.AllLeadHome where
  current := h.rooted.leadsHome h.current_lt
  bound frame name value hvalue := h.leadsHome (h.bound frame name value hvalue) (Lasting.refl m)
  fields id name value hvalue := h.leadsHome (h.fields id name value hvalue) (Lasting.refl m)
  classes id object hobject := h.leadsHome (h.classes id object hobject) (Lasting.refl m)

end Machine

/-- What comes of the code that is started leads home, then and on all machines that have grown since. -/
def Moment.GivesHome (moment : Moment) : Prop :=
  match moment.happening with
  | .starts (.expression e) => ∀ fuel value m m', Run.evaluate fuel e moment.machine = .ok value m →
      m.Grows m' → m'.LeadsHome value
  | .starts (.statement t) => ∀ fuel value m m',
      Run.execute fuel t moment.machine = .ok (.returned value) m → m.Grows m' → m'.LeadsHome value
  | _ => True

theorem Upholds.orderly {t : Traced α} {post : Machine → α → Prop} (h : Upholds m t post) {a : α}
    (hrun : t.run m = .ok a m') : m'.Orderly ∧ post m' a := by
  obtain ⟨m₁, hpath, ⟨b, hrun', hpost⟩ | ⟨interrupt, hrun', -⟩⟩ := h
  · rw [hrun] at hrun'
    cases hrun'
    exact ⟨hpath.orderly, hpost⟩
  · nomatch hrun.symm.trans hrun'

theorem Moment.IsProper.givesHome {moment : Moment} (h : moment.IsProper)
    (horderly : moment.machine.Orderly) : moment.GivesHome := by
  obtain ⟨machine, happening⟩ := moment
  cases happening with
  | starts code =>
    cases code with
    | expression e =>
      intro fuel value m m' hrun hgrows
      rw [← Traced.evaluate_run] at hrun
      obtain ⟨horderly', hfit⟩ := (evaluate_upholds fuel machine e horderly h).orderly hrun
      exact horderly'.leadsHome hfit hgrows
    | statement t =>
      intro fuel value m m' hrun hgrows
      rw [← Traced.execute_run] at hrun
      obtain ⟨horderly', hfit⟩ := (execute_upholds fuel machine t horderly h).orderly hrun
      exact horderly'.leadsHome (hfit value List.mem_cons_self) hgrows
  | _ => trivial

/-! ## Sessions that grow -/

/-- A unit that is run as it is traced grows along what is traced. -/
theorem perform_growth {back : Machine → FrameId} {traced : α → Traced β} {action : α → Run β}
    (htracks : Tracks back traced action) (hgrowing : ∀ tree, Growing (traced tree)) (session : Session)
    (checked : Checked α) :
    session.machine.Growth (checked.moments traced session.idle)
      (session.perform checked action).2.machine := by
  cases hresult : checked.result with
  | error diagnostics =>
    rw [perform_rejected hresult]
    simp only [Checked.moments, hresult]
    exact .of_same rfl rfl
  | ok unit =>
    obtain ⟨tree, distances⟩ := unit
    have ready : session.machine.Grows (session.idle.adopt distances) := .of_same rfl rfl
    have growth := Growth.behind ready ((hgrowing tree).growth (session.idle.adopt distances))
    rw [perform_settles htracks hresult]
    simp only [Checked.moments, hresult]
    cases hrun : (traced tree).run (session.idle.adopt distances) with
    | ok b m' =>
      rw [hrun] at growth
      exact growth
    | error interrupt m' =>
      rw [hrun] at growth
      -- where the run stops, nothing is changed but the current frame
      exact growth.ahead (.of_same rfl rfl)

theorem handle_growth (h : History) (request : Request) :
    h.session.machine.Growth (h.session.moments request) (h.handle request).session.machine := by
  cases request with
  | run fuel source =>
    exact perform_growth (interpret_tracks fuel) (program_growing fuel) h.session _
  | evaluate fuel source =>
    exact perform_growth (evaluate_tracks fuel) (evaluate_growing fuel) h.session _
  | offer offered =>
    have defined := Grows.define h.session.machine Frames.globalId offered.name
      (.host ⟨h.session.machine.actions.size, offered.name, offered.arity⟩)
    exact defined.trans (.of_same rfl rfl)
  | input bytes => exact .of_same rfl rfl

theorem History.growth (h : History) (requests : List Request) :
    h.session.machine.Growth (h.moments requests) (h.after requests).session.machine := by
  induction requests generalizing h with
  | nil => exact Lasting.refl (R := Grows) _
  | cons first more ih => exact (handle_growth h first).append (ih (h.handle first))

/-- The frames of a session are a tree around the global frame, and it only grows. Whatever the session is
asked for, and with functions of the host that build their answers from their arguments, the way outwards
leads to the global frame from the current frame and from each function there is, at each moment and in the
end, and so it does from what any code that is started gives. Along the moments nothing is taken away, and
frames and objects stay inside of what encloses them and of the class that they are of. That holds for each
piece of code by itself as well, on any machine, whether it comes to its end or stops. -/
theorem frames_rooted (sink : Sink) (world : World) (requests : List Request)
    (hhost : ∀ request ∈ requests, request.Builds) :
    let start := History.start sink world
    let last := (start.after requests).session.machine
    (last.AllLeadHome ∧ ∀ moment ∈ start.moments requests,
        moment.machine.AllLeadHome ∧ moment.GivesHome) ∧
      start.session.machine.Growth (start.moments requests) last ∧
      (∀ fuel e m, Machine.Growth m ((Traced.evaluate fuel e).trace m)
        (Run.last (Run.evaluate fuel e m))) ∧
      ∀ fuel t m, Machine.Growth m ((Traced.execute fuel t).trace m)
        (Run.last (Run.execute fuel t m)) := by
  intro start last
  have path : Path start.session.machine (start.moments requests) last :=
    History.path (start_orderly sink world) hhost
  refine ⟨⟨path.orderly.allLeadHome, fun moment hmoment => ?_⟩, start.growth requests, ?_, ?_⟩
  · have orderly := path.orderly_of_mem hmoment
    exact ⟨orderly.allLeadHome, (path.proper moment hmoment).givesHome orderly⟩
  · intro fuel e m
    rw [← Traced.evaluate_run]
    exact (evaluate_growing fuel e).growth m
  · intro fuel t m
    rw [← Traced.execute_run]
    exact (execute_growing fuel t).growth m

private theorem checked_copied_method :
    (checkProgram 0 "class A\x7bm()\x7b\x7d\x7dvar a=A();a.f=a.m;a.f()();").result =
      .ok ([.classDecl ⟨.identifier, "A", 1⟩ [⟨⟨.identifier, "m", 1⟩, [], []⟩],
        .varDecl ⟨.identifier, "a", 1⟩
          (some (.call (.var 0 ⟨.identifier, "A", 1⟩) ⟨.symbol .rightParen, ")", 1⟩ [])),
        .expression (.set (.var 1 ⟨.identifier, "a", 1⟩) ⟨.identifier, "f", 1⟩
          (.get (.var 2 ⟨.identifier, "a", 1⟩) ⟨.identifier, "m", 1⟩)),
        .expression (.call (.call (.get (.var 3 ⟨.identifier, "a", 1⟩) ⟨.identifier, "f", 1⟩)
          ⟨.symbol .rightParen, ")", 1⟩ []) ⟨.symbol .rightParen, ")", 1⟩ [])], []) := by
  unfold checkProgram check tokensOf lexicalIssuesOf
  rw [itemsOf_eq_itemsWithin]
  rfl

/-- A method is bound to its object, copied to be stored in a field of the object, and copied again to be
called, before the run stops. Each of the copies has a frame inside of the global one, and the frame of the
call is inside of that of the last copy. -/
theorem frames_rooted_copied_method :
    let requests : List Request := [.run 9 "class A\x7bm()\x7b\x7d\x7dvar a=A();a.f=a.m;a.f()();"]
    let start := History.start (.start none) (.start [])
    let last := (start.after requests).session.machine
    (last.frames.nextId = 5 ∧ (List.range 5).map last.frames.enclosing? =
        [none, some 0, some 0, some 0, some 3]) ∧
      (last.AllLeadHome ∧ ∀ moment ∈ start.moments requests,
        moment.machine.AllLeadHome ∧ moment.GivesHome) ∧
      start.session.machine.Growth (start.moments requests) last := by
  intro requests start last
  have rooted := frames_rooted (.start none) (.start []) requests (List.forall_mem_singleton.mpr trivial)
  have machine : last = _ := History.machine_run (h := start) checked_copied_method 9
  refine ⟨?_, rooted.1, rooted.2.1⟩
  rw [machine]
  decide +kernel

end Lox
