import Lox.Proofs.Session.Tracing
import Lox.Proofs.Trace.Rules

/-!
# Sessions follow paths

Whatever a session is asked for, its trace leads along a path from the machine before to the machine
behind (`History.path`), since the code that a unit brings in is well formed. So no run stops for an
operator that is none, and no declaration binds the name of the receiver.
-/

namespace Lox

open Machine

variable {α β : Type} {session : Session} {checked : Checked α}

/-- How a unit ends is not about an operator that is none. -/
def Outcome.IsProper (outcome : Outcome α) : Prop :=
  ∀ line, outcome ≠ .failed (.stopped (.runtime line .invalidUnaryOperator)) ∧
    outcome ≠ .failed (.stopped (.runtime line .invalidBinaryOperator))

/-- A request ends properly. -/
def Session.EndsProperly (session : Session) : Request → Prop
  | .run fuel source => (session.run fuel source).1.IsProper
  | .evaluate fuel source => (session.evaluate fuel source).1.IsProper
  | .offer _ | .input _ => True

theorem Outcome.IsProper.done (a : α) : (Outcome.done a).IsProper := by
  intro line
  constructor <;> rintro ⟨⟩

theorem Outcome.IsProper.rejected (diagnostics : List Diagnostic) :
    (Outcome.failed (.rejected diagnostics) : Outcome α).IsProper := by
  intro line
  constructor <;> rintro ⟨⟩

theorem Interrupt.IsProper.outcome {interrupt : Interrupt} (h : interrupt.IsProper) :
    (Outcome.ofInterrupt interrupt : Outcome α).IsProper := by
  intro line
  cases interrupt with
  | stopped diagnostic =>
    obtain ⟨hunary, hbinary⟩ := h line
    constructor
    · rintro ⟨⟩
      exact hunary rfl
    · rintro ⟨⟩
      exact hbinary rfl
  | strayed | exhausted => exact ⟨nofun, nofun⟩

/-! ## Requests one by one -/

theorem Machine.Orderly.idle (h : session.machine.Orderly) : session.machine.Calm session.idle :=
  h.of_same rfl rfl h.host h.current_lt

theorem Machine.Orderly.adopt {m : Machine} (h : m.Orderly) (distances : Distances) :
    m.Calm (m.adopt distances) :=
  h.of_same rfl rfl h.host h.current_lt

/-- An offered function is bound in the global frame, where no object is held as a receiver. -/
theorem Machine.Orderly.offer {m : Machine} (h : m.Orderly) {offered : HostOffer}
    (hoffered : offered.action.Builds) : m.Calm (m.offer offered) := by
  have fit : m.Fit (.host ⟨m.actions.size, offered.name, offered.arity⟩) := trivial
  have defined : m.Calm (m.define Frames.globalId offered.name _) :=
    h.define fit fun _ => ⟨rfl, _, rfl⟩
  have host : ∀ action ∈ (m.offer offered).actions, action.Builds := by
    intro action haction
    rcases Array.mem_push.mp haction with hold | rfl
    · exact h.host action hold
    · exact hoffered
  exact defined.trans (defined.orderly.of_same rfl rfl host defined.orderly.current_lt)

/-- A unit that is run as it is traced leads along a path if what is traced does. -/
theorem perform_path {back : Machine → FrameId} {traced : α → Traced β} {action : α → Run β}
    {post : Machine → β → Prop} (htracks : Tracks back traced action)
    (hback : ∀ m, m.Orderly → back m < m.frames.nextId) (h : session.machine.Orderly)
    (hupholds : ∀ tree distances, checked.result = .ok (tree, distances) → ∀ m, m.Orderly →
      Upholds m (traced tree) post) :
    Path session.machine (checked.moments traced session.idle) (session.perform checked action).2.machine ∧
      (session.perform checked action).1.IsProper := by
  have idle := h.idle
  cases hresult : checked.result with
  | error diagnostics =>
    rw [perform_rejected hresult]
    simp only [Checked.moments, hresult]
    exact ⟨.calm idle, .rejected diagnostics⟩
  | ok unit =>
    obtain ⟨tree, distances⟩ := unit
    have ready := idle.trans (idle.orderly.adopt distances)
    obtain ⟨m', hpath, hend⟩ := hupholds tree distances hresult _ ready.orderly
    rw [perform_settles htracks hresult]
    simp only [Checked.moments, hresult]
    rcases hend with ⟨b, hrun, -⟩ | ⟨interrupt, hrun, hproper⟩
    · rw [hrun]
      exact ⟨hpath.after_calm ready, .done b⟩
    · rw [hrun]
      -- where the run stops, nothing is changed but the current frame
      have settled : m'.Calm { m' with current := back m' } :=
        hpath.orderly.of_same rfl rfl hpath.orderly.host (hback m' hpath.orderly)
      have whole := (hpath.append (.calm settled)).after_calm ready
      rw [List.append_nil] at whole
      exact ⟨whole, hproper.outcome⟩

/-- A request to an orderly session leads along a path, and ends properly. -/
theorem handle_path {h : History} (horderly : h.session.machine.Orderly) {request : Request}
    (hrequest : request.Builds) :
    Path h.session.machine (h.session.moments request) (h.handle request).session.machine ∧
      h.session.EndsProperly request := by
  cases request with
  | run fuel source =>
    have upholds : ∀ program distances,
        (checkProgram h.session.nextId source).result = .ok (program, distances) → ∀ m, m.Orderly →
          Upholds m (Traced.executeProgram fuel program) fun _ _ => True := by
      intro program distances hresult m hm
      obtain ⟨-, hparsed, -⟩ := check_ok hresult
      exact program_upholds fuel hm (formed_of_parseProgram hparsed).mem
    exact perform_path (interpret_tracks fuel) (fun m hm => Nat.zero_lt_of_lt hm.current_lt) horderly
      upholds
  | evaluate fuel source =>
    have upholds : ∀ value distances,
        (checkExpression h.session.nextId source).result = .ok (value, distances) → ∀ m, m.Orderly →
          Upholds m (Traced.evaluate fuel value) Machine.Fit := by
      intro value distances hresult m hm
      obtain ⟨-, hparsed, -⟩ := check_ok hresult
      exact evaluate_upholds fuel m value hm (formed_of_parseExpression hparsed)
    exact perform_path (evaluate_tracks fuel) (fun m hm => hm.current_lt) horderly upholds
  | offer offered => exact ⟨.calm (horderly.offer hrequest), trivial⟩
  | input bytes =>
    exact ⟨.calm (horderly.of_same rfl rfl horderly.host horderly.current_lt), trivial⟩

/-! ## All requests -/

/-- Whatever an orderly session is asked for, it follows a path. -/
theorem History.path {h : History} (horderly : h.session.machine.Orderly) {requests : List Request}
    (hrequests : ∀ request ∈ requests, request.Builds) :
    Path h.session.machine (h.moments requests) (h.after requests).session.machine := by
  induction requests generalizing h with
  | nil => exact .calm horderly.calm
  | cons first more ih =>
    obtain ⟨hfirst, hmore⟩ := List.forall_mem_cons.mp hrequests
    obtain ⟨hpath, -⟩ := handle_path horderly hfirst
    exact hpath.append (ih hpath.orderly hmore)

theorem blank_orderly (sink : Sink) (world : World) : (Machine.blank sink world).Orderly := by
  have nowhere {frame : FrameId} {name : String} {value : Value}
      (h : (Machine.blank sink world).frames.local? frame name = some value) : False := by
    cases (Frames.local?_start frame name).symm.trans h
  refine ⟨Nat.one_pos, Frames.rooted_start, fun _ _ h => (nowhere h).elim, fun _ _ _ h => (nowhere h).elim, ?_, ?_, ?_⟩
  · exact fun _ _ h => nomatch h
  · exact fun _ _ _ h => nomatch h
  · exact fun action h => absurd h (Array.not_mem_empty action)

theorem start_orderly (sink : Sink) (world : World) :
    (History.start sink world).session.machine.Orderly := by
  obtain ⟨hclock, hreadLine, -⟩ :
      HostOffer.clock.action.Builds ∧ HostOffer.readLine.action.Builds ∧ True := by
    simpa [HostOffer.standard] using standard_builds
  exact (((blank_orderly sink world).offer hclock).orderly.offer hreadLine).orderly

/-- Trees are well formed. What the parser makes of a source is. So, whatever a session is asked for, and
with functions of the host that build their answers from their arguments, all code that is ever started
is well formed, no unit stops for an operator that is none, no declaration binds the name of the receiver,
and nothing but objects is bound to it. -/
theorem trees_well_formed (sink : Sink) (world : World) (requests : List Request)
    (hhost : ∀ request ∈ requests, request.Builds) :
    (∀ n n' source program, parseProgram n (tokensOf source) = ⟨.ok program, n'⟩ →
        Stmt.FormedAll program) ∧
      (∀ n n' source value, parseExpression n (tokensOf source) = ⟨.ok value, n'⟩ → value.Formed) ∧
      ∀ earlier request later, requests = earlier ++ request :: later →
        let h := (History.start sink world).after earlier
        h.session.EndsProperly request ∧ (h.handle request).session.machine.BindsReceivers ∧
          ∀ moment ∈ h.session.moments request, moment.IsProper ∧ moment.machine.BindsReceivers := by
  refine ⟨fun _ _ _ _ h => formed_of_parseProgram h, fun _ _ _ _ h => formed_of_parseExpression h, ?_⟩
  rintro earlier request later rfl h
  obtain ⟨hearlier, hmore⟩ := List.forall_mem_append.mp hhost
  have horderly : h.session.machine.Orderly := (History.path (start_orderly sink world) hearlier).orderly
  obtain ⟨hpath, hends⟩ := handle_path horderly (hmore request List.mem_cons_self)
  refine ⟨hends, hpath.orderly.receivers, fun moment hmoment => ?_⟩
  exact ⟨hpath.proper moment hmoment, (hpath.orderly_of_mem hmoment).receivers⟩

private theorem items_of_negation :
    itemsOf "fun f(x)\x7breturn !x==nil;\x7dprint f(true);" =
      [.token ⟨.keyword .funKw, "fun", 1⟩, .token ⟨.identifier, "f", 1⟩,
        .token ⟨.symbol .leftParen, "(", 1⟩, .token ⟨.identifier, "x", 1⟩,
        .token ⟨.symbol .rightParen, ")", 1⟩, .token ⟨.symbol .leftBrace, "\x7b", 1⟩,
        .token ⟨.keyword .returnKw, "return", 1⟩, .token ⟨.symbol .bang, "!", 1⟩,
        .token ⟨.identifier, "x", 1⟩, .token ⟨.symbol .equalEqual, "==", 1⟩,
        .token ⟨.keyword .nilKw, "nil", 1⟩, .token ⟨.symbol .semicolon, ";", 1⟩,
        .token ⟨.symbol .rightBrace, "\x7d", 1⟩, .token ⟨.keyword .printKw, "print", 1⟩,
        .token ⟨.identifier, "f", 1⟩, .token ⟨.symbol .leftParen, "(", 1⟩,
        .token ⟨.keyword .trueKw, "true", 1⟩, .token ⟨.symbol .rightParen, ")", 1⟩,
        .token ⟨.symbol .semicolon, ";", 1⟩, .token (.eof 1)] := by
  rw [itemsOf_eq_itemsWithin]
  rfl

private theorem checked_negation :
    (checkProgram 0 "fun f(x)\x7breturn !x==nil;\x7dprint f(true);").result =
      .ok ([.funDecl ⟨⟨.identifier, "f", 1⟩, [⟨.identifier, "x", 1⟩],
          [.returns ⟨.keyword .returnKw, "return", 1⟩
            (some (.binary (.unary ⟨.symbol .bang, "!", 1⟩ (.var 0 ⟨.identifier, "x", 1⟩))
              ⟨.symbol .equalEqual, "==", 1⟩ (.literal .nil)))]⟩,
        .print (.call (.var 1 ⟨.identifier, "f", 1⟩) ⟨.symbol .rightParen, ")", 1⟩
          [.literal (.boolean true)])], [(0, 0)]) := by
  unfold checkProgram check tokensOf lexicalIssuesOf
  rw [items_of_negation]
  rfl

/-- A function with operators is called, and nothing is bound to the name of the receiver but a function
of the host. -/
theorem trees_well_formed_negation :
    let offered : HostOffer := { HostOffer.clock with name := receiverName }
    let requests : List Request := [.offer offered, .run 9 "fun f(x)\x7breturn !x==nil;\x7dprint f(true);"]
    let start := History.start (.start none) (.start [])
    (start.after requests).session.printed = "false\n" ∧
      ∀ earlier request later, requests = earlier ++ request :: later →
        let h := start.after earlier
        h.session.EndsProperly request ∧ (h.handle request).session.machine.BindsReceivers ∧
          ∀ moment ∈ h.session.moments request, moment.IsProper ∧ moment.machine.BindsReceivers := by
  intro offered requests start
  have builds : offered.action.Builds := standard_builds HostOffer.clock List.mem_cons_self
  refine ⟨?_, (trees_well_formed _ _ requests ?_).2.2⟩
  · have machine : (start.after requests).session.machine = _ :=
      History.machine_run (h := start.handle (.offer offered)) checked_negation 9
    rw [Session.printed, machine]
    decide +kernel
  · exact List.forall_mem_cons.mpr ⟨builds, List.forall_mem_singleton.mpr trivial⟩

end Lox
