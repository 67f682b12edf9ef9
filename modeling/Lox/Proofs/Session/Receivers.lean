import Lox.Proofs.Receiver.Reading
import Lox.Proofs.Receiver.Rules
import Lox.Proofs.Session.Following

/-!
# Sessions lose no receivers

Whatever a session is asked for, and with functions of the host that build their answers in full from
their arguments: weak receivers are sealed between all requests and everywhere within them, all that a
program comes to see is in full, what is read from a field is bound as what was written to it, a call of
a bound method runs its declaration in its environment with its receiver in force, and `this` gives the
receiver in force (`receivers_kept`).
-/

namespace Lox

open Machine

/-! ## Attended units -/

namespace Session

/-- Runs a program as one unit, and attends it. -/
noncomputable def runAttended (final : Machine) (fuel : Nat) (session : Session) (source : String) :
    Outcome Unit × Session :=
  session.perform (checkProgram session.nextId source) (Run.interpretAttended final fuel)

/-- Evaluates a single expression as one unit, and attends it. -/
noncomputable def evaluateAttended (final : Machine) (fuel : Nat) (session : Session)
    (source : String) : Outcome Value × Session :=
  session.perform (checkExpression session.nextId source) (Run.evaluateAttended final fuel)

/-- On the way to a machine that comes last, no receiver is lost by a request: to attend it, or to watch
what `this` gives, makes no difference, and it does not stray. A value that it ends with is in full. -/
def KeepsReceivers (session : Session) (final : Machine) : Request → Prop
  | .run fuel source =>
    session.runAttended final fuel source = session.run fuel source ∧
      session.runWatched ReadsReceiver fuel source = session.run fuel source ∧
      (session.run fuel source).1 ≠ .strayed
  | .evaluate fuel source =>
    session.evaluateAttended final fuel source = session.evaluate fuel source ∧
      session.evaluateWatched ReadsReceiver fuel source = session.evaluate fuel source ∧
      (session.evaluate fuel source).1 ≠ .strayed ∧
      ∀ value, (session.evaluate fuel source).1 = .done value → final.InFull value
  | .offer _ | .input _ => True

end Session

/-- Only functions that build their answers in full from their arguments are offered. -/
def Request.BuildsInFull : Request → Prop
  | .offer offered => offered.action.BuildsInFull
  | _ => True

theorem BuiltInFull.builtFrom {heap : Heap} {arguments : List Value} {value : Value}
    (h : BuiltInFull heap arguments value) : BuiltFrom heap arguments value := by
  induction h with
  | nil => exact .nil
  | boolean => exact .boolean
  | number => exact .number
  | string => exact .string
  | argument hmem => exact .argument hmem
  | object _ hid ih => exact .object ih hid
  | field _ hid hfield _ ih => exact .field ih hid hfield
  | cls _ hid hobject ih => exact .cls ih hid hobject

theorem Request.BuildsInFull.builds {request : Request} (h : request.BuildsInFull) :
    request.Builds := by
  cases request with
  | offer offered => exact fun heap world arguments v hv => (h heap world arguments v hv).builtFrom
  | _ => trivial

/-! ## Requests one by one -/

section

variable {α β : Type} {session : Session}

/-- The machine on which a unit starts is tidy with the distances of the unit. -/
theorem Machine.Tidy.idle (h : session.machine.Tidy) :
    session.machine.Earlier session.idle ∧ session.idle.Tidy :=
  h.of_same rfl rfl h.host h.current_lt h.isSealed.current

theorem Machine.Tidy.adopt {m : Machine} (h : m.Tidy) (distances : Distances) :
    m.Earlier (m.adopt distances) ∧ (m.adopt distances).Tidy :=
  h.of_same rfl rfl h.host h.current_lt h.isSealed.current

/-- A unit that keeps receivers sealed leaves a tidy machine behind. -/
theorem perform_keeps (h : session.machine.Tidy) (checked : Checked α) (action : α → Run β)
    (attended : Machine → α → Run β) (post : Machine → β → Prop)
    (hkeeps : ∀ tree distances, checked.result = .ok (tree, distances) →
      (session.idle.adopt distances).Tidy → Keeps (session.idle.adopt distances) (action tree)
        (fun final => attended final tree) post) :
    let ended := session.perform checked action
    session.machine.Earlier ended.2.machine ∧ ended.2.machine.Tidy ∧
      (∀ final, ended.2.machine.Earlier final →
        session.perform checked (attended final) = ended) ∧
      ∀ value, ended.1 = .done value → post ended.2.machine value := by
  obtain ⟨rested, idle⟩ := h.idle
  cases hresult : checked.result with
  | error diagnostics =>
    simp only [perform_rejected hresult]
    exact ⟨rested, idle, fun _ _ => trivial, nofun⟩
  | ok unit =>
    obtain ⟨tree, distances⟩ := unit
    obtain ⟨adopted, ready⟩ := idle.adopt distances
    obtain ⟨m', hreach, hsame, hend⟩ := hkeeps tree distances hresult ready
    have earlier := (rested.trans adopted).trans hreach.earlier
    rcases hend with ⟨b, hrun, hpost⟩ | ⟨interrupt, hrun⟩
    · simp only [perform_done hresult hrun]
      refine ⟨earlier, hreach.tidy, fun final hfinal => ?_, ?_⟩
      · exact perform_done hresult ((hsame final hfinal).trans hrun)
      · rintro value ⟨⟩
        exact hpost
    · simp only [perform_interrupted hresult hrun]
      refine ⟨earlier, hreach.tidy, fun final hfinal => ?_, ?_⟩
      · exact perform_interrupted hresult ((hsame final hfinal).trans hrun)
      · intro value hvalue
        cases interrupt <;> nomatch hvalue

end

/-- An offered function gets its name in the global frame, where no object is held as a receiver. -/
theorem offer_keeps {m : Machine} (h : m.Tidy) {offered : HostOffer}
    (hoffered : offered.action.BuildsInFull) : m.Earlier (m.offer offered) ∧ (m.offer offered).Tidy := by
  have outside : offered.name = receiverName →
      Value.objectId? (.host ⟨m.actions.size, offered.name, offered.arity⟩) = none ∧
        ∀ kept, m.frames.local? Frames.globalId receiverName = some kept → kept.objectId? = none :=
    fun _ => ⟨rfl, h.outside⟩
  have fine : m.Fine (.host ⟨m.actions.size, offered.name, offered.arity⟩) :=
    Machine.fine_of_plain trivial
  have defined := h.define fine outside
  have earlier := Earlier.define m Frames.globalId outside
  have host : ∀ action ∈ (m.offer offered).actions, action.BuildsInFull := by
    intro action haction
    rcases Array.mem_push.mp haction with hold | rfl
    · exact h.host action hold
    · exact hoffered
  have same : _ ∧ (m.offer offered).Tidy :=
    defined.of_same rfl rfl host defined.current_lt defined.isSealed.current
  exact ⟨earlier.trans same.1, same.2⟩

/-- A request to a sound and tidy session loses no receiver, and leaves the session tidy. -/
theorem handle_keeps {h : History} {labels : Labels} (hsound : h.Sound labels)
    (htidy : h.session.machine.Tidy) {request : Request} (hrequest : request.BuildsInFull) :
    h.session.machine.Earlier (h.handle request).session.machine ∧
      (h.handle request).session.machine.Tidy ∧
      ∀ final, (h.handle request).session.machine.Earlier final →
        h.session.KeepsReceivers final request := by
  have more : h.units ⊆ h.units ++ h.session.admitted request := List.subset_append_left _ _
  cases request with
  | run fuel source =>
    have admitted : ∀ program distances,
        (checkProgram h.session.nextId source).result = .ok (program, distances) →
          ∀ t ∈ program, .statement t ∈ h.units ++ h.session.admitted (.run fuel source) := by
      intro program distances hresult t ht
      rw [Session.admitted_run fuel hresult]
      exact List.mem_append_right _ (List.mem_map_of_mem ht)
    obtain ⟨labels', -, -, hwatched⟩ :=
      run_sound (fun _ => readsReceiver _) hsound more fuel admitted
    obtain ⟨same, clean⟩ := hwatched labels' fun _ _ => rfl
    have kept := perform_keeps htidy (checkProgram h.session.nextId source) (Run.interpret fuel)
      (fun final => Run.interpretAttended final fuel) (fun _ _ => True) (by
        intro program distances hresult ready
        obtain ⟨-, bound⟩ := bound_of_checkProgram (m := h.session.idle) hsound.fresh hresult
        exact interpret_keeps fuel program ready hsound.current bound)
    obtain ⟨earlier, tidy, attended, -⟩ := kept
    exact ⟨earlier, tidy, fun final hfinal => ⟨attended final hfinal, same, clean⟩⟩
  | evaluate fuel source =>
    have admitted : ∀ value distances,
        (checkExpression h.session.nextId source).result = .ok (value, distances) →
          .expression value ∈ h.units ++ h.session.admitted (.evaluate fuel source) := by
      intro value distances hresult
      rw [Session.admitted_evaluate fuel hresult]
      exact List.mem_append_right _ (List.mem_singleton_self _)
    obtain ⟨labels', -, -, hwatched⟩ :=
      evaluate_sound (fun _ => readsReceiver _) hsound more fuel admitted
    obtain ⟨same, clean⟩ := hwatched labels' fun _ _ => rfl
    have kept := perform_keeps htidy (checkExpression h.session.nextId source) (Run.evaluate fuel)
      (fun final => Run.evaluateAttended final fuel) Machine.Fine (by
        intro value distances hresult ready
        obtain ⟨-, bound⟩ := bound_of_checkExpression (m := h.session.idle) hsound.fresh hresult
        exact evaluates_tidily fuel _ _ _ value ready bound)
    obtain ⟨earlier, tidy, attended, fine⟩ := kept
    refine ⟨earlier, tidy, fun final hfinal => ⟨attended final hfinal, same, clean, ?_⟩⟩
    intro value hvalue
    exact hfinal.inFull (fine value hvalue).full
  | offer offered =>
    obtain ⟨earlier, tidy⟩ := offer_keeps htidy hrequest
    exact ⟨earlier, tidy, fun _ _ => trivial⟩
  | input bytes =>
    have same : _ ∧ (h.handle (.input bytes)).session.machine.Tidy :=
      htidy.of_same rfl rfl htidy.host htidy.current_lt htidy.isSealed.current
    exact ⟨same.1, same.2, fun _ _ => trivial⟩

/-! ## All requests -/

/-- Whatever else a sound and tidy session is asked for, no receiver is lost on the way to where it ends. -/
theorem keeps_of_tidy {h : History} {labels : Labels} (hsound : h.Sound labels)
    (htidy : h.session.machine.Tidy) {requests : List Request}
    (hrequests : ∀ request ∈ requests, request.BuildsInFull) :
    h.session.machine.Earlier (h.after requests).session.machine ∧
      (h.after requests).session.machine.Tidy ∧
      ∀ earlier request later, requests = earlier ++ request :: later →
        (h.after earlier).session.machine.Sealed ∧
          (h.after earlier).session.KeepsReceivers (h.after requests).session.machine request := by
  induction requests generalizing h labels with
  | nil =>
    refine ⟨.refl _, htidy, fun earlier request later hsplit => ?_⟩
    simp at hsplit
  | cons first more ih =>
    obtain ⟨hfirst, hmore⟩ := List.forall_mem_cons.mp hrequests
    obtain ⟨labels₁, hsound₁, -⟩ := handle_sound hsound hfirst.builds
    obtain ⟨earlier₁, htidy₁, hkeeps⟩ := handle_keeps hsound htidy hfirst
    obtain ⟨hearlier, hlast, hall⟩ := ih hsound₁ htidy₁ hmore
    refine ⟨earlier₁.trans hearlier, hlast, fun earlier request later hsplit => ?_⟩
    cases earlier with
    | nil =>
      injection hsplit with hrequest _
      exact ⟨htidy.isSealed, hrequest ▸ hkeeps _ hearlier⟩
    | cons request' earlier =>
      injection hsplit with hrequest hsplit
      subst hrequest
      exact hall earlier request later hsplit

/-- The functions that are always there build their answers from nothing. -/
theorem standard_buildsInFull : ∀ offered ∈ HostOffer.standard, offered.action.BuildsInFull := by
  intro offered hoffered heap world arguments v h
  rcases standard_answers offered hoffered heap world arguments v h with rfl | ⟨x, rfl⟩ | ⟨text, rfl⟩
  · exact .nil
  · exact .number
  · exact .string

theorem blank_tidy (sink : Sink) (world : World) : (Machine.blank sink world).Tidy := by
  have full : ∀ id, ¬(Machine.blank sink world).HoldsWeakly id := by
    rintro id ⟨object, hobject⟩
    cases (Frames.local?_start id _).symm.trans hobject
  have nowhere {frame : FrameId} {name : String} {value : Value}
      (h : (Machine.blank sink world).frames.local? frame name = some value) : False := by
    cases (Frames.local?_start frame name).symm.trans h
  have empty {id : ObjectId} {object : Object}
      (h : (Machine.blank sink world).heap.object? id = some object) : False := by
    cases h
  have fieldless {id : ObjectId} {name : String} {value : Value}
      (h : (Machine.blank sink world).heap.field? id name = some value) : False := by
    cases h
  refine ⟨⟨full _, full _, fun _ outer _ => full outer, ?_, ?_, ?_⟩, Nat.one_pos, ?_, Nat.one_pos, ?_,
    ?_, ?_, ?_, ?_⟩
  · exact fun _ _ _ h => (nowhere h).elim
  · exact fun _ _ h => (empty h).elim
  · exact fun _ _ _ h => (fieldless h).elim
  · exact fun _ h => (nowhere h).elim
  · intro frame outer h
    cases (Frames.enclosing?_start frame).symm.trans h
  · exact fun _ _ _ h => (nowhere h).elim
  · exact fun _ _ h => (empty h).elim
  · exact fun _ _ _ h => (fieldless h).elim
  · exact fun action h => absurd h (Array.not_mem_empty action)

theorem start_tidy (sink : Sink) (world : World) :
    (History.start sink world).session.machine.Tidy := by
  obtain ⟨hclock, hreadLine, -⟩ :
      HostOffer.clock.action.BuildsInFull ∧ HostOffer.readLine.action.BuildsInFull ∧ True := by
    simpa [HostOffer.standard] using standard_buildsInFull
  exact (offer_keeps (offer_keeps (blank_tidy sink world) hclock).2 hreadLine).2

/-- No receiver is ever lost. Whatever a session is asked for, weak receivers are sealed before each
request and behind all of them, and each request is carried out, on the way to the machine that comes
last, as it is when everything about receivers is attended. -/
theorem receivers_kept (sink : Sink) (world : World) (requests : List Request)
    (hhost : ∀ request ∈ requests, request.BuildsInFull) :
    let start := History.start sink world
    (start.after requests).session.machine.Sealed ∧
      ∀ earlier request later, requests = earlier ++ request :: later →
        (start.after earlier).session.machine.Sealed ∧
          (start.after earlier).session.KeepsReceivers (start.after requests).session.machine
            request := by
  obtain ⟨-, hlast, hkeeps⟩ :=
    keeps_of_tidy (start_sound sink world) (start_tidy sink world) hhost
  exact ⟨hlast.isSealed, hkeeps⟩

private theorem checked_stored_method :
    (checkProgram 0 "class A\x7bm()\x7breturn this;\x7d\x7dvar a=A();a.f=a.m;print a.f()==a;").result =
      .ok ([.classDecl ⟨.identifier, "A", 1⟩ [⟨⟨.identifier, "m", 1⟩, [],
          [.returns ⟨.keyword .returnKw, "return", 1⟩ (some (.this 0 ⟨.keyword .thisKw, "this", 1⟩))]⟩],
        .varDecl ⟨.identifier, "a", 1⟩
          (some (.call (.var 1 ⟨.identifier, "A", 1⟩) ⟨.symbol .rightParen, ")", 1⟩ [])),
        .expression (.set (.var 2 ⟨.identifier, "a", 1⟩) ⟨.identifier, "f", 1⟩
          (.get (.var 3 ⟨.identifier, "a", 1⟩) ⟨.identifier, "m", 1⟩)),
        .print (.binary (.call (.get (.var 4 ⟨.identifier, "a", 1⟩) ⟨.identifier, "f", 1⟩)
            ⟨.symbol .rightParen, ")", 1⟩ [])
          ⟨.symbol .equalEqual, "==", 1⟩ (.var 5 ⟨.identifier, "a", 1⟩))], [(0, 1)]) := by
  unfold checkProgram check tokensOf lexicalIssuesOf
  rw [itemsOf_eq_itemsWithin]
  rfl

/-- A method that is stored on its own receiver still has it, behind a function of the host that gives its
argument back. -/
theorem receivers_kept_stored_method :
    let echo : HostOffer := ⟨"echo", 1, fun _ world arguments => (.ok (arguments.headD .nil), world)⟩
    let requests : List Request :=
      [.offer echo,
        .run 9 "class A\x7bm()\x7breturn this;\x7d\x7dvar a=A();a.f=a.m;print a.f()==a;"]
    let start := History.start (.start none) (.start [])
    (start.after requests).session.printed = "true\n" ∧
      (start.after requests).session.machine.Sealed ∧
      ∀ earlier request later, requests = earlier ++ request :: later →
        (start.after earlier).session.machine.Sealed ∧
          (start.after earlier).session.KeepsReceivers (start.after requests).session.machine
            request := by
  intro echo requests start
  refine ⟨?_, receivers_kept _ _ requests ?_⟩
  · have machine : (start.after requests).session.machine = _ :=
      History.machine_run (h := start.handle (.offer echo)) checked_stored_method 9
    rw [Session.printed, machine]
    decide +kernel
  · refine List.forall_mem_cons.mpr ⟨?_, List.forall_mem_singleton.mpr trivial⟩
    rintro heap world arguments _ ⟨⟩
    cases arguments with
    | nil => exact .nil
    | cons first more => exact .argument List.mem_cons_self

end Lox
