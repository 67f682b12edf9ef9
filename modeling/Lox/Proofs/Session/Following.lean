import Lox.Proofs.Machine.Contained
import Lox.Proofs.Machine.Watched
import Lox.Proofs.Session.Admission

/-!
# Sessions follow the resolver

A session is asked for one thing after the other: to run or evaluate a unit, to offer a function of
the host, or to read another input. Whatever it is asked for, there is one way to label all the frames
that it ever makes such that each unit that passes its checks is run where its code lies
(`follows`), with the code of all units so far to be called.
-/

namespace Lox

/-! ## Requests -/

/-- What a session can be asked for. -/
inductive Request where
  | run (fuel : Nat) (source : String)
  | evaluate (fuel : Nat) (source : String)
  | offer (offered : HostOffer)
  | input (bytes : List UInt8)

/-- The code of a unit, if it passed its checks. -/
def Checked.codes {α : Type} (checked : Checked α) (codes : α → List Code) : List Code :=
  match checked.result with
  | .ok (tree, _) => codes tree
  | .error _ => []

theorem codes_of_ok {α : Type} {checked : Checked α} {tree : α} {distances : Distances}
    (h : checked.result = .ok (tree, distances)) (codes : α → List Code) :
    checked.codes codes = codes tree := by
  simp only [Checked.codes, h]

namespace Session

/-- The session after a request. -/
def handle (session : Session) : Request → Session
  | .run fuel source => (session.run fuel source).2
  | .evaluate fuel source => (session.evaluate fuel source).2
  | .offer offered => { session with machine := session.machine.offer offered }
  | .input bytes => session.withInput bytes

/-- The code that a request brings in, if it passes its checks. -/
def admitted (session : Session) : Request → List Code
  | .run _ source => (checkProgram session.nextId source).codes (·.map .statement)
  | .evaluate _ source => (checkExpression session.nextId source).codes ([.expression ·])
  | .offer _ | .input _ => []

section

variable {session : Session} {source : String} {distances : Distances}

theorem admitted_run {program : List Stmt} (fuel : Nat)
    (h : (checkProgram session.nextId source).result = .ok (program, distances)) :
    session.admitted (.run fuel source) = program.map .statement :=
  codes_of_ok h _

theorem admitted_evaluate {value : Expr} (fuel : Nat)
    (h : (checkExpression session.nextId source).result = .ok (value, distances)) :
    session.admitted (.evaluate fuel source) = [.expression value] :=
  codes_of_ok h _

end

/-- Runs a program as one unit, and watches it. -/
noncomputable def runWatched (promise : Code → Machine → Prop) (fuel : Nat) (session : Session)
    (source : String) : Outcome Unit × Session :=
  session.perform (checkProgram session.nextId source) (Run.interpretWatched promise fuel)

/-- Evaluates a single expression as one unit, and watches it. -/
noncomputable def evaluateWatched (promise : Code → Machine → Prop) (fuel : Nat)
    (session : Session) (source : String) : Outcome Value × Session :=
  session.perform (checkExpression session.nextId source) (Run.evaluateWatched promise fuel)

end Session

/-- A session, with the code of all its units so far. -/
structure History where
  session : Session
  units : List Code

namespace History

/-- A session that has not been asked for anything. -/
def start (sink : Sink) (world : World) : History := ⟨.start (.start sink world), []⟩

/-- The history with one more request. -/
def handle (h : History) (request : Request) : History :=
  ⟨h.session.handle request, h.units ++ h.session.admitted request⟩

/-- The history with more requests. -/
def after (h : History) (requests : List Request) : History := requests.foldl handle h

/-- A request is carried out where its code lies: to watch it makes no difference, and it does not
stray. -/
def Follows (h : History) (labels : Labels) (request : Request) : Prop :=
  match request with
  | .run fuel source =>
    h.session.runWatched (Placed labels (h.handle request).units) fuel source =
        h.session.run fuel source ∧
      (h.session.run fuel source).1 ≠ .strayed
  | .evaluate fuel source =>
    h.session.evaluateWatched (Placed labels (h.handle request).units) fuel source =
        h.session.evaluate fuel source ∧
      (h.session.evaluate fuel source).1 ≠ .strayed
  | .offer _ | .input _ => True

end History

/-! ## More code -/

theorem Lies.mono {units units' : List Code} (hunits : units ⊆ units') {path : List Opener}
    {code : Code} (h : Lies units path code) : Lies units' path code := by
  induction h with
  | unit hmem => exact .unit (hunits hmem)
  | part _ hinner ih => exact .part ih hinner

namespace Layout

variable {setting setting' : Setting} {σ σ' : Layout}

/-- What is good stays good with more code and a larger record. -/
theorem ValueGood.widen (hunits : setting.units ⊆ setting'.units)
    (hrecord : setting.record.Extends setting'.record) (hgrows : σ.Grows σ') {value : Value}
    (h : ValueGood setting σ value) : ValueGood setting' σ' value := by
  cases value with
  | function f =>
    obtain ⟨path, scopes, hruns, hlies, hbound⟩ := h
    exact ⟨path, scopes, hruns.mono hgrows, fun t ht => (hlies t ht).mono hunits,
      hbound.mono hrecord⟩
  | cls cls =>
    intro name method hmethod
    obtain ⟨path, scopes, name, methods, hruns, hlies, hbound⟩ := h name method hmethod
    exact ⟨path, scopes, name, methods, hruns.mono hgrows, fun t ht => (hlies t ht).mono hunits,
      hbound.mono hrecord⟩
  | _ => trivial

theorem Good.widen (h : Good setting σ) (hunits : setting.units ⊆ setting'.units)
    (hrecord : setting.record.Extends setting'.record) (hlabels : σ'.labels = σ.labels)
    (hframes : σ'.machine.frames = σ.machine.frames) (hheap : σ'.machine.heap = σ.machine.heap)
    (hdistances : ∀ id, σ'.machine.distances[id]? = setting'.record.distance? id)
    (hhost : ∀ action ∈ σ'.machine.actions, action.Builds) : Good setting' σ' := by
  have grows : σ.Grows σ' := .of_frames_eq hframes hlabels
  refine ⟨?_, ?_, ?_, ?_, ?_, ?_, ?_, hdistances, hhost⟩
  · exact hframes ▸ h.nextId_pos
  · exact hlabels ▸ h.global
  · exact hlabels ▸ hframes ▸ h.receivers
  · exact hlabels ▸ hframes ▸ h.held
  · exact fun id name value hvalue =>
      (h.bound id name value (hframes ▸ hvalue)).widen hunits hrecord grows
  · intro id object hobject
    have good : ValueGood setting σ (.cls object.cls) := h.classes id object (hheap ▸ hobject)
    exact good.widen hunits hrecord grows
  · exact fun id name value hvalue =>
      (h.fields id name value (hheap ▸ hvalue)).widen hunits hrecord grows

end Layout

open Layout

/-! ## Sound sessions -/

/-- The machine of a session, with its frames labelled. -/
def Session.layout (session : Session) (labels : Labels) : Layout := ⟨session.machine, labels⟩

/-- What passed its checks in a session. -/
def History.setting (h : History) : Setting :=
  ⟨h.units, h.session.machine.record h.session.nextId⟩

/-- A session between two units: laid out well, outside of all scopes, and without distances for the
occurrences to come. -/
structure History.Sound (h : History) (labels : Labels) : Prop where
  good : Good h.setting (h.session.layout labels)
  current : h.session.machine.current = Frames.globalId
  fresh : ∀ id, h.session.nextId ≤ id → h.session.machine.distances[id]? = none

/-- The machine on which a unit starts. -/
def Session.idle (session : Session) : Machine :=
  { session.machine with sink := .start session.machine.sink.limit }

section

variable {α β : Type} {session : Session} {units units' : List Code} {labels : Labels}
variable {checked : Checked α} {tree : α} {distances : Distances}

theorem perform_rejected {diagnostics : List Diagnostic} (h : checked.result = .error diagnostics)
    (action : α → Run β) :
    session.perform checked action =
      (.failed (.rejected diagnostics), ⟨session.idle, checked.nextId⟩) := by
  unfold Session.perform
  rw [h]
  rfl

theorem perform_done {action : α → Run β} (h : checked.result = .ok (tree, distances)) {b : β}
    {m : Machine} (hrun : action tree (session.idle.adopt distances) = .ok b m) :
    session.perform checked action = (.done b, ⟨m, checked.nextId⟩) := by
  unfold Session.idle at hrun
  simp only [Session.perform, h, hrun]

theorem perform_interrupted {action : α → Run β} (h : checked.result = .ok (tree, distances))
    {interrupt : Interrupt} {m : Machine}
    (hrun : action tree (session.idle.adopt distances) = .error interrupt m) :
    session.perform checked action = (.ofInterrupt interrupt, ⟨m, checked.nextId⟩) := by
  unfold Session.idle at hrun
  simp only [Session.perform, h, hrun]

/-- A unit that passed its checks leaves the machine in which its run ends. -/
theorem perform_machine (h : checked.result = .ok (tree, distances)) (action : α → Run β) :
    (session.perform checked action).2.machine =
      Run.last (action tree (session.idle.adopt distances)) := by
  cases hrun : action tree (session.idle.adopt distances) with
  | ok b m =>
    rw [perform_done h hrun]
    rfl
  | error interrupt m =>
    rw [perform_interrupted h hrun]
    rfl

/-- Behind a program, the machine is the one in which its run ends. -/
theorem History.machine_run {h : History} {source : String} {program : List Stmt} {distances : Distances}
    (hresult : (checkProgram h.session.nextId source).result = .ok (program, distances)) (fuel : Nat) :
    (h.handle (.run fuel source)).session.machine =
      Run.last (Run.interpret fuel program (h.session.idle.adopt distances)) :=
  perform_machine hresult (Run.interpret fuel)

theorem ofInterrupt_ne_strayed {interrupt : Interrupt} (h : interrupt ≠ .strayed) :
    (Outcome.ofInterrupt interrupt : Outcome β) ≠ .strayed := by
  cases interrupt with
  | strayed => exact absurd rfl h
  | _ => nofun

/-- A rejected unit changes nothing that matters. -/
theorem rejected_sound (hsound : History.Sound ⟨session, units⟩ labels) {n : OccurrenceId}
    (hle : session.nextId ≤ n) (hunits : units ⊆ units') :
    History.Sound ⟨⟨session.idle, n⟩, units'⟩ labels where
  good := hsound.good.widen hunits ⟨hle, fun _ _ => rfl⟩ rfl rfl rfl (fun _ => rfl)
    hsound.good.host
  current := hsound.current
  fresh id hid := hsound.fresh id (Nat.le_trans hle hid)

/-- A unit that is safe once it is admitted leaves a sound session behind. -/
theorem perform_sound (hsound : History.Sound ⟨session, units⟩ labels)
    (hle : session.nextId ≤ checked.nextId) (hunits : units ⊆ units') (action : α → Run β)
    (watched : Labels → α → Run β)
    (hsafe : ∀ tree distances, checked.result = .ok (tree, distances) →
      Admits session.idle session.nextId checked.nextId distances ∧
        ∀ σ : Layout, σ.machine = session.idle.adopt distances →
          σ.Good ⟨units', (session.idle.adopt distances).record checked.nextId⟩ →
          Safe ⟨units', (session.idle.adopt distances).record checked.nextId⟩ σ (action tree)
            (fun labels => watched labels tree) fun _ _ => True) :
    ∃ labels', History.Sound ⟨(session.perform checked action).2, units'⟩ labels' ∧
      (session.layout labels).Grows ((session.perform checked action).2.layout labels') ∧
      ∀ labels'', ((session.perform checked action).2.layout labels').Agrees labels'' →
        session.perform checked (watched labels'') = session.perform checked action ∧
          (session.perform checked action).1 ≠ .strayed := by
  cases hresult : checked.result with
  | error diagnostics =>
    rw [perform_rejected hresult action]
    exact ⟨labels, rejected_sound hsound hle hunits, .of_frames_eq rfl rfl,
      fun _ _ => ⟨perform_rejected hresult _, nofun⟩⟩
  | ok unit =>
    obtain ⟨tree, distances⟩ := unit
    obtain ⟨admits, safe⟩ := hsafe tree distances hresult
    have good : Good ⟨units', (session.idle.adopt distances).record checked.nextId⟩
        ⟨session.idle.adopt distances, labels⟩ :=
      hsound.good.widen hunits admits.extended rfl rfl rfl (fun _ => rfl)
        hsound.good.host
    obtain ⟨σ', hreach, hsame, hend⟩ := safe _ rfl good
    have record : σ'.machine.record checked.nextId =
        (session.idle.adopt distances).record checked.nextId := by
      unfold Machine.record
      congr
      exact funext hreach.good.distances
    have sound : History.Sound ⟨⟨σ'.machine, checked.nextId⟩, units'⟩ σ'.labels := by
      refine ⟨?_, hreach.current.trans hsound.current, ?_⟩
      · rw [History.setting, record]
        exact hreach.good
      · exact fun id hid => (hreach.good.distances id).trans (admits.fresh id hid)
    have start : (session.layout labels).Grows ⟨session.idle.adopt distances, labels⟩ :=
      .of_frames_eq rfl rfl
    have grows := start.trans hreach.grows
    rcases hend with ⟨a, hrun, -⟩ | ⟨interrupt, hrun, hinterrupt⟩
    · rw [perform_done hresult hrun]
      refine ⟨σ'.labels, sound, grows, fun labels hlabels => ⟨?_, nofun⟩⟩
      exact perform_done hresult ((hsame labels hlabels).trans hrun)
    · rw [perform_interrupted hresult hrun]
      refine ⟨σ'.labels, sound, grows,
        fun labels hlabels => ⟨?_, ofInterrupt_ne_strayed hinterrupt⟩⟩
      exact perform_interrupted hresult ((hsame labels hlabels).trans hrun)

theorem run_sound {promise : Labels → Code → Machine → Prop}
    (hpromise : ∀ record, Warranted ⟨units', record⟩ promise)
    (hsound : History.Sound ⟨session, units⟩ labels) (hunits : units ⊆ units') (fuel : Nat)
    {source : String}
    (hadmitted : ∀ program distances,
      (checkProgram session.nextId source).result = .ok (program, distances) →
        ∀ t ∈ program, .statement t ∈ units') :
    ∃ labels', History.Sound ⟨(session.run fuel source).2, units'⟩ labels' ∧
      (session.layout labels).Grows ((session.run fuel source).2.layout labels') ∧
      ∀ labels'', ((session.run fuel source).2.layout labels').Agrees labels'' →
        session.runWatched (promise labels'') fuel source = session.run fuel source ∧
          (session.run fuel source).1 ≠ .strayed := by
  refine perform_sound hsound (nextId_le_checkProgram _ source) hunits (Run.interpret fuel) _ ?_
  intro program distances hresult
  obtain ⟨admits, bound⟩ := bound_of_checkProgram (m := session.idle) hsound.fresh hresult
  refine ⟨admits, fun σ hmachine hgood => ?_⟩
  refine interpret_safe (hpromise _) fuel program hgood ?_ bound (hadmitted program distances hresult)
  rw [hmachine]
  exact hsound.current

theorem evaluate_sound {promise : Labels → Code → Machine → Prop}
    (hpromise : ∀ record, Warranted ⟨units', record⟩ promise)
    (hsound : History.Sound ⟨session, units⟩ labels) (hunits : units ⊆ units') (fuel : Nat)
    {source : String}
    (hadmitted : ∀ value distances,
      (checkExpression session.nextId source).result = .ok (value, distances) →
        .expression value ∈ units') :
    ∃ labels', History.Sound ⟨(session.evaluate fuel source).2, units'⟩ labels' ∧
      (session.layout labels).Grows ((session.evaluate fuel source).2.layout labels') ∧
      ∀ labels'', ((session.evaluate fuel source).2.layout labels').Agrees labels'' →
        session.evaluateWatched (promise labels'') fuel source =
            session.evaluate fuel source ∧
          (session.evaluate fuel source).1 ≠ .strayed := by
  refine perform_sound hsound (nextId_le_checkExpression _ source) hunits (Run.evaluate fuel) _ ?_
  intro value distances hresult
  obtain ⟨admits, bound⟩ := bound_of_checkExpression (m := session.idle) hsound.fresh hresult
  refine ⟨admits, fun σ hmachine hgood => ?_⟩
  have outside : σ.Runs σ.machine.current [] [] := by
    rw [hmachine, show (session.idle.adopt distances).current = _ from hsound.current]
    exact .global
  have unit := Lies.unit (hadmitted value distances hresult)
  exact Safe.mono (evaluates (hpromise _) fuel σ [] [] value hgood outside bound unit) fun _ _ _ _ => trivial

end

/-! ## Requests one by one -/

/-- Only functions that build their answers from their arguments are offered. -/
def Request.Builds : Request → Prop
  | .offer offered => offered.action.Builds
  | _ => True

theorem offer_sound {h : History} {labels : Labels} (hsound : h.Sound labels)
    {offered : HostOffer} (hoffered : offered.action.Builds) :
    (h.handle (.offer offered)).Sound labels ∧
      (h.session.layout labels).Grows ((h.handle (.offer offered)).session.layout labels) := by
  have good : Good h.setting ((h.session.layout labels).define Frames.globalId offered.name
      (.host ⟨h.session.machine.actions.size, offered.name, offered.arity⟩)) :=
    hsound.good.define _ trivial fun _ => ⟨rfl, rfl⟩
  have host : ∀ action ∈ h.session.machine.actions.push offered.action, action.Builds := by
    intro action haction
    rcases Array.mem_push.mp haction with hold | rfl
    · exact hsound.good.host action hold
    · exact hoffered
  have units : h.units ⊆ (h.handle (.offer offered)).units := List.subset_append_left _ _
  refine ⟨⟨?_, hsound.current, hsound.fresh⟩, ?_⟩
  · exact good.widen units ⟨Nat.le_refl _, fun _ _ => rfl⟩ rfl rfl rfl (fun _ => rfl) host
  · exact Grows.trans (Grows.define (h.session.layout labels) Frames.globalId offered.name
      (.host ⟨h.session.machine.actions.size, offered.name, offered.arity⟩)) (.of_frames_eq rfl rfl)

/-- What a session is asked for leaves it sound, and is followed with all labels that go on from the
ones behind it. -/
theorem handle_sound {h : History} {labels : Labels} (hsound : h.Sound labels) {request : Request}
    (hrequest : request.Builds) :
    ∃ labels', (h.handle request).Sound labels' ∧
      (h.session.layout labels).Grows ((h.handle request).session.layout labels') ∧
      ∀ labels'', ((h.handle request).session.layout labels').Agrees labels'' →
        h.Follows labels'' request := by
  have more : h.units ⊆ h.units ++ h.session.admitted request := List.subset_append_left _ _
  cases request with
  | run fuel source =>
    refine run_sound (fun _ => placed ⟨_, _⟩) hsound more fuel fun program distances hresult t ht => ?_
    rw [Session.admitted_run fuel hresult]
    exact List.mem_append_right _ (List.mem_map_of_mem ht)
  | evaluate fuel source =>
    refine evaluate_sound (fun _ => placed ⟨_, _⟩) hsound more fuel fun value distances hresult => ?_
    rw [Session.admitted_evaluate fuel hresult]
    exact List.mem_append_right _ (List.mem_singleton_self _)
  | offer offered =>
    obtain ⟨sound, grows⟩ := offer_sound hsound hrequest
    exact ⟨labels, sound, grows, fun _ _ => trivial⟩
  | input bytes =>
    have good : Good (h.handle (.input bytes)).setting
        ((h.handle (.input bytes)).session.layout labels) :=
      hsound.good.widen more ⟨Nat.le_refl _, fun _ _ => rfl⟩ rfl rfl rfl (fun _ => rfl)
        hsound.good.host
    exact ⟨labels, ⟨good, hsound.current, hsound.fresh⟩, .of_frames_eq rfl rfl, fun _ _ => trivial⟩

/-! ## All requests -/

/-- The functions that are always there answer with plain data, whatever they are called on. -/
theorem standard_answers : ∀ offered ∈ HostOffer.standard, ∀ heap world arguments v,
    (offered.action heap world arguments).1 = .ok v →
      v = .nil ∨ (∃ x, v = .number x) ∨ ∃ text, v = .string text := by
  simp only [HostOffer.standard, List.forall_mem_cons]
  refine ⟨?_, ?_, List.forall_mem_nil _⟩
  · intro heap world arguments v h
    injection h with h
    exact .inr (.inl ⟨_, h.symm⟩)
  · intro heap world arguments v h
    simp only [HostOffer.readLine] at h
    split at h
    · injection h with h
      exact .inl h.symm
    · simp only at h
      split at h
      · injection h with h
        exact .inr (.inr ⟨_, h.symm⟩)
      · cases h

theorem standard_builds : ∀ offered ∈ HostOffer.standard, offered.action.Builds := by
  intro offered hoffered heap world arguments v h
  rcases standard_answers offered hoffered heap world arguments v h with rfl | ⟨x, rfl⟩ | ⟨text, rfl⟩
  · exact .nil
  · exact .number
  · exact .string

theorem blank_sound (sink : Sink) (world : World) :
    History.Sound ⟨.start (.blank sink world), []⟩ fun _ => none := by
  have empty : ∀ id, Heap.empty.object? id = none := fun id => rfl
  refine ⟨⟨Nat.one_pos, rfl, ?_, ?_, ?_, ?_, ?_, fun _ => rfl, ?_⟩, rfl, fun _ _ => ?_⟩
  · intro id value h
    cases (Frames.local?_start id _).symm.trans h
  · intro id name methods h
    cases h
  · intro id name value h
    cases (Frames.local?_start id name).symm.trans h
  · intro id object h
    cases (empty id).symm.trans h
  · intro id name value h
    cases h
  · exact fun action h => absurd h (Array.not_mem_empty action)
  · exact Std.TreeMap.getElem?_emptyc

theorem start_sound (sink : Sink) (world : World) :
    (History.start sink world).Sound fun _ => none := by
  obtain ⟨hclock, hreadLine, -⟩ :
      HostOffer.clock.action.Builds ∧ HostOffer.readLine.action.Builds ∧ True := by
    simpa [HostOffer.standard] using standard_builds
  exact (offer_sound (offer_sound (blank_sound sink world) hclock).1 hreadLine).1

/-- Whatever else a sound session is asked for, it is sound. -/
theorem after_sound {h : History} {labels : Labels} (hsound : h.Sound labels)
    {requests : List Request} (hrequests : ∀ request ∈ requests, request.Builds) :
    ∃ labels', (h.after requests).Sound labels' := by
  induction requests generalizing h labels with
  | nil => exact ⟨labels, hsound⟩
  | cons first more ih =>
    obtain ⟨hfirst, hmore⟩ := List.forall_mem_cons.mp hrequests
    obtain ⟨_, hsound', -⟩ := handle_sound hsound hfirst
    exact ih hsound' hmore

/-- The code that is kept makes no difference to the session. -/
theorem History.after_session (h : History) (requests : List Request) :
    (h.after requests).session = requests.foldl Session.handle h.session := by
  induction requests generalizing h with
  | nil => rfl
  | cons first more ih => exact ih (h.handle first)

/-- Whatever else a sound session is asked for, all of it is followed with the same labels. -/
theorem follows_of_sound {h : History} {labels : Labels} (hsound : h.Sound labels)
    {requests : List Request} (hrequests : ∀ request ∈ requests, request.Builds) :
    ∃ labels', (h.session.layout labels).Agrees labels' ∧
      ∀ earlier request later, requests = earlier ++ request :: later →
        (h.after earlier).Follows labels' request := by
  induction requests generalizing h labels with
  | nil =>
    refine ⟨labels, fun _ _ => rfl, fun earlier request later hsplit => ?_⟩
    simp at hsplit
  | cons first more ih =>
    obtain ⟨hfirst, hmore⟩ := List.forall_mem_cons.mp hrequests
    obtain ⟨labels₁, hsound₁, hgrows, hfollows⟩ := handle_sound hsound hfirst
    obtain ⟨labels', hagrees, hall⟩ := ih hsound₁ hmore
    refine ⟨labels', hgrows.agrees hagrees, fun earlier request later hsplit => ?_⟩
    cases earlier with
    | nil =>
      injection hsplit with hrequest _
      exact hrequest ▸ hfollows labels' hagrees
    | cons request' earlier =>
      injection hsplit with hrequest hsplit
      subst hrequest
      exact hall earlier request later hsplit

/-- Every unit that passes its checks is run where its code lies, and so is all code of earlier units
that it calls. Whatever a session is asked for, one labelling of its frames does for all of it. -/
theorem resolution_sound (sink : Sink) (world : World) (requests : List Request)
    (hhost : ∀ request ∈ requests, request.Builds) :
    ∃ labels, ∀ earlier request later, requests = earlier ++ request :: later →
      ((History.start sink world).after earlier).Follows labels request := by
  obtain ⟨labels, -, hfollows⟩ := follows_of_sound (start_sound sink world) hhost
  exact ⟨labels, hfollows⟩

/-- A block that reads its own variable passes its checks with one distance, and is followed behind a
function of the host that gives its argument back. -/
theorem resolution_sound_block :
    (checkProgram 0 "\x7bvar a;a;\x7d").result =
        .ok ([.block [.varDecl ⟨.identifier, "a", 1⟩ none,
          .expression (.var 0 ⟨.identifier, "a", 1⟩)]], [(0, 0)]) ∧
      ∃ labels, ∀ earlier request later,
        [.offer ⟨"echo", 1, fun _ world arguments => (.ok (arguments.headD .nil), world)⟩,
          .run 9 "\x7bvar a;a;\x7d"] = earlier ++ request :: later →
        ((History.start (.start none) (.start [])).after earlier).Follows labels request := by
  refine ⟨?_, resolution_sound _ _ _ ?_⟩
  · unfold checkProgram check tokensOf lexicalIssuesOf
    rw [itemsOf_eq_itemsWithin]
    rfl
  · exact List.forall_mem_cons.mpr ⟨builds_headD, List.forall_mem_singleton.mpr trivial⟩

end Lox
