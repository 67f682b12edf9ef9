import Lox.Proofs.Session.Following
import Lox.Proofs.Session.Renumbering
import Lox.Proofs.Twin.Relabeling
import Lox.Proofs.Twin.Rules

/-!
# Twin sessions

Two sessions are twins if one cannot tell them apart by asking for anything: they went the same way, and
differ in the numbering of occurrences alone. Whatever twins are asked for, the same is seen of both,
and they are twins again (`handle_twins`). Functions of the host must not see code to that end.

A session that offers only such functions is its own twin (`after_twins`), and so there is always one
to compare others with.
-/

namespace Lox

variable {α β : Type}

/-! ## What can be seen -/

/-- An outcome with another value. -/
def Outcome.map (f : α → β) : Outcome α → Outcome β
  | .done a => .done (f a)
  | .failed failure => .failed failure
  | .strayed => .strayed
  | .exhausted => .exhausted

/-- What can be seen of a unit: how it ended, with the text of its value if it has one, and what it
printed. -/
structure Observation where
  outcome : Outcome (Option String)
  printed : String

/-- What can be seen of a unit that has ended, where `shown` is what can be seen of its value. -/
def Observation.of (shown : Heap → α → Option String) (ended : Outcome α × Session) : Observation :=
  ⟨ended.1.map (shown ended.2.machine.heap), ended.2.printed⟩

/-- What can be seen of a request; only of units there is something to see. -/
def Session.observe (session : Session) : Request → Option Observation
  | .run fuel source => some (.of (fun _ _ => none) (session.run fuel source))
  | .evaluate fuel source =>
    some (.of (fun heap value => some (value.text heap)) (session.evaluate fuel source))
  | .offer _ | .input _ => none

/-- Only functions that do not see code are offered. -/
def Request.Blind : Request → Prop
  | .offer offered => offered.action.Blind
  | _ => True

/-! ## Twins -/

namespace Session

/-- What two machines have on record; all lines are the same, and nothing is promised. -/
def tie (left right : Record) : Tie where
  left := left
  right := right
  line := Eq
  before := ""
  promise _ _ := True

/-- Sessions that differ in the numbering of occurrences alone. -/
structure Twins (s s' : Session) : Prop where
  machines : ∃ labels, Pair.Twins (tie (s.machine.record s.nextId) (s'.machine.record s'.nextId))
    ⟨labels, s.idle, s'.idle⟩
  current : s.machine.current = Frames.globalId
  fresh : ∀ id, s.nextId ≤ id → s.machine.distances[id]? = none
  fresh' : ∀ id, s'.nextId ≤ id → s'.machine.distances[id]? = none

end Session

open Pair Session

/-- Where all lines are the same, so are interrupts. -/
theorem Tie.Interrupts.eq {left right : Record} {i i' : Interrupt}
    (h : (Session.tie left right).Interrupts i i') : i' = i := by
  cases h with
  | runtime fault hline =>
    cases (hline : _ = _)
    rfl
  | _ => rfl

section

variable {s s' : Session}

theorem Sink.behind_start (limit : Option Nat) : (Sink.start limit).Behind "" (.start limit) := by
  refine ⟨rfl, ?_⟩
  cases limit <;> rfl

theorem Session.Twins.limit (h : s.Twins s') : s'.machine.sink.limit = s.machine.sink.limit := by
  obtain ⟨labels, hmachines⟩ := h.machines
  have limit : s'.machine.sink.limit = s.machine.sink.limit.map (· - 0) := hmachines.sink.limit
  rw [limit]
  cases s.machine.sink.limit <;> rfl

/-- Twin machines with all their code on record are those of twin sessions. -/
theorem twins_of_machines {left right : Record} {σ : Pair} (h : σ.Twins (Session.tie left right))
    (hcurrent : σ.left.current = Frames.globalId)
    (hfresh : ∀ id, left.nextId ≤ id → left.distance? id = none)
    (hfresh' : ∀ id, right.nextId ≤ id → right.distance? id = none) :
    Session.Twins ⟨σ.left, left.nextId⟩ ⟨σ.right, right.nextId⟩ := by
  have record : σ.left.record left.nextId = left := by
    unfold Machine.record
    congr
    exact funext h.distances
  have record' : σ.right.record right.nextId = right := by
    unfold Machine.record
    congr
    exact funext h.distances'
  have limit : σ.right.sink.limit = σ.left.sink.limit := by
    rw [h.sink.limit]
    cases σ.left.sink.limit <;> rfl
  refine ⟨⟨σ.labels, ?_⟩, hcurrent, fun id hid => ?_, fun id hid => ?_⟩
  · rw [record, record']
    have sink : (Sink.start σ.left.sink.limit).Behind "" (.start σ.right.sink.limit) := by
      rw [limit]
      exact Sink.behind_start _
    exact h.extend (.refl _) rfl rfl rfl rfl rfl h.current h.distances h.distances' h.actions
      h.blind sink h.world h.nextIdentity
  · exact (h.distances id).trans (hfresh id hid)
  · exact (h.distances' id).trans (hfresh' id hid)

/-- Distances that are taken over on both sides leave twins. -/
theorem Session.Twins.adopt (h : s.Twins s') {n n' : OccurrenceId}
    {distances distances' : Distances} (hadmits : Admits s.idle s.nextId n distances)
    (hadmits' : Admits s'.idle s'.nextId n' distances') :
    ∃ labels, Pair.Twins
      (tie ((s.idle.adopt distances).record n) ((s'.idle.adopt distances').record n'))
      ⟨labels, s.idle.adopt distances, s'.idle.adopt distances'⟩ := by
  obtain ⟨labels, hmachines⟩ := h.machines
  refine ⟨labels, hmachines.extend ⟨hadmits.extended, hadmits'.extended, fun _ _ h => h, ?_⟩ rfl rfl rfl
    rfl rfl hmachines.current (fun _ => rfl) (fun _ => rfl) hmachines.actions hmachines.blind
    hmachines.sink hmachines.world hmachines.nextIdentity⟩
  exact fun guards e m _ => guards e m trivial

/-- Identities that nothing uses, and what was printed, make no difference. -/
theorem Session.Twins.later (h : s.Twins s') {t t' : Session} (hidle : t.idle = s.idle)
    (hidle' : t'.idle = s'.idle) (hle : s.nextId ≤ t.nextId) (hle' : s'.nextId ≤ t'.nextId) :
    t.Twins t' := by
  have distances : t.machine.distances = s.machine.distances :=
    show t.idle.distances = s.idle.distances by rw [hidle]
  have distances' : t'.machine.distances = s'.machine.distances :=
    show t'.idle.distances = s'.idle.distances by rw [hidle']
  have current : t.machine.current = s.machine.current :=
    show t.idle.current = s.idle.current by rw [hidle]
  obtain ⟨labels, hmachines⟩ := h.machines
  refine ⟨⟨labels, ?_⟩, current.trans h.current, fun id hid => ?_, fun id hid => ?_⟩
  · rw [hidle, hidle', Machine.record, Machine.record, distances, distances']
    refine hmachines.extend ⟨⟨hle, fun _ _ => rfl⟩, ⟨hle', fun _ _ => rfl⟩, fun _ _ h => h, ?_⟩ rfl
      rfl rfl rfl rfl hmachines.current (fun _ => rfl) (fun _ => rfl) hmachines.actions
      hmachines.blind hmachines.sink hmachines.world hmachines.nextIdentity
    -- nothing is guarded where nothing is promised
    exact fun guards e m _ => guards e m trivial
  · rw [distances]
    exact h.fresh id (Nat.le_trans hle hid)
  · rw [distances']
    exact h.fresh' id (Nat.le_trans hle' hid)

/-! ## Units -/

variable {checked checked' : Checked α}

/-- Both units are rejected, with the same diagnostics. -/
def RejectedAlike (checked checked' : Checked α) : Prop :=
  ∃ diagnostics, checked.result = .error diagnostics ∧ checked'.result = .error diagnostics

theorem perform_rejected_twins (h : s.Twins s') (hle : s.nextId ≤ checked.nextId)
    (hle' : s'.nextId ≤ checked'.nextId) (hrejected : RejectedAlike checked checked')
    (action : α → Run β) (shown : Heap → β → Option String) :
    (s.perform checked action).2.Twins (s'.perform checked' action).2 ∧
      Observation.of shown (s'.perform checked' action) =
        .of shown (s.perform checked action) := by
  obtain ⟨diagnostics, hresult, hresult'⟩ := hrejected
  rw [perform_rejected hresult, perform_rejected hresult']
  exact ⟨h.later rfl rfl hle hle', rfl⟩

/-- Units that are admitted on both sides end alike, if their actions agree. -/
theorem perform_admitted_twins (h : s.Twins s') {tree tree' : α} {distances distances' : Distances}
    (hresult : checked.result = .ok (tree, distances))
    (hresult' : checked'.result = .ok (tree', distances'))
    (hadmits : Admits s.idle s.nextId checked.nextId distances)
    (hadmits' : Admits s'.idle s'.nextId checked'.nextId distances') {action : α → Run β}
    {post : Pair → β → β → Prop}
    (hagree : ∀ tie σ, tie = Session.tie ((s.idle.adopt distances).record checked.nextId)
        ((s'.idle.adopt distances').record checked'.nextId) →
      σ.Twins tie → σ.left.current = Frames.globalId →
        Agree tie σ (action tree) (action tree') fun σ' b b' => σ'.Twins tie → post σ' b b')
    {shown : Heap → β → Option String}
    (hshown : ∀ σ' b b', post σ' b b' →
      shown σ'.right.heap b' = shown σ'.left.heap b) :
    (s.perform checked action).2.Twins (s'.perform checked' action).2 ∧
      Observation.of shown (s'.perform checked' action) =
        .of shown (s.perform checked action) := by
  obtain ⟨labels, hmachines⟩ := h.adopt hadmits hadmits'
  obtain ⟨σ, hreach, hend⟩ :=
    Agree.always (fun _ _ => trivial) (hagree _ _ rfl hmachines h.current)
  have twins := twins_of_machines hreach.twins (hreach.current.trans h.current) hadmits.fresh
    hadmits'.fresh
  have printed : σ.right.sink.text = σ.left.sink.text := by
    rw [hreach.twins.sink.text]
    exact String.empty_append.symm
  rcases hend with ⟨b, b', hrun, hrun', hpost⟩ | ⟨i, i', hrun, hrun', hi⟩
  · rw [perform_done hresult hrun, perform_done hresult' hrun']
    refine ⟨twins, ?_⟩
    simp only [Observation.of, Session.printed, Outcome.map, printed,
      hshown σ b b' (hpost hreach.twins)]
  · rw [perform_interrupted hresult hrun, perform_interrupted hresult' hrun', hi.eq]
    refine ⟨twins, ?_⟩
    simp only [Observation.of, Session.printed, printed]
    cases i <;> rfl

/-- A check gives the same diagnostics wherever the numbering begins, or relabeled trees. -/
theorem renumber_cases (step step' : Nat) (f f' : α → α) (checked : Checked α) :
    RejectedAlike (checked.renumber step f) (checked.renumber step' f') ∨
      ∃ tree distances distances', (checked.renumber step f).result = .ok (f tree, distances) ∧
        (checked.renumber step' f').result = .ok (f' tree, distances') := by
  obtain ⟨result, nextId⟩ := checked
  cases result with
  | error diagnostics => exact .inl ⟨diagnostics, rfl, rfl⟩
  | ok unit => exact .inr ⟨unit.1, _, _, rfl, rfl⟩

theorem relines_shift (left right : Record) (step step' : Nat) :
    (Session.tie left right).Relines (.shift step id) (.shift step' id) := fun _ => rfl

theorem run_twins (h : s.Twins s') (fuel : Nat) (source : String) :
    (s.run fuel source).2.Twins (s'.run fuel source).2 ∧
      s'.observe (.run fuel source) = s.observe (.run fuel source) := by
  unfold Session.observe Session.run
  rw [Option.some_inj]
  have hle := nextId_le_checkProgram s.nextId source
  have hle' := nextId_le_checkProgram s'.nextId source
  have eq := checkProgram_add 0 s.nextId source
  have eq' := checkProgram_add 0 s'.nextId source
  rw [Nat.zero_add] at eq eq'
  rcases renumber_cases s.nextId s'.nextId (Stmt.relabelAll (.shift s.nextId id))
      (Stmt.relabelAll (.shift s'.nextId id)) (checkProgram 0 source) with
    hrejected | ⟨tree, distances, distances', hresult, hresult'⟩
  · rw [← eq, ← eq'] at hrejected
    exact perform_rejected_twins h hle hle' hrejected _ _
  · rw [← eq] at hresult
    rw [← eq'] at hresult'
    obtain ⟨hadmits, hbound⟩ := bound_of_checkProgram (m := s.idle) h.fresh hresult
    obtain ⟨hadmits', hbound'⟩ := bound_of_checkProgram (m := s'.idle) h.fresh' hresult'
    refine perform_admitted_twins h hresult hresult' hadmits hadmits' ?_
      fun _ _ _ (_ : True) => rfl
    rintro tie σ rfl hσ hcurrent
    have twins := Stmt.Bound.twins (relines_shift _ _ _ _) tree hbound hbound'
    exact (interpret_agree (fun _ _ => trivial) fuel hσ hcurrent twins).mono
      fun _ _ _ _ _ _ => trivial

theorem evaluate_twins (h : s.Twins s') (fuel : Nat) (source : String) :
    (s.evaluate fuel source).2.Twins (s'.evaluate fuel source).2 ∧
      s'.observe (.evaluate fuel source) = s.observe (.evaluate fuel source) := by
  unfold Session.observe Session.evaluate
  rw [Option.some_inj]
  have hle := nextId_le_checkExpression s.nextId source
  have hle' := nextId_le_checkExpression s'.nextId source
  have eq := checkExpression_add 0 s.nextId source
  have eq' := checkExpression_add 0 s'.nextId source
  rw [Nat.zero_add] at eq eq'
  rcases renumber_cases s.nextId s'.nextId (Expr.relabel (.shift s.nextId id))
      (Expr.relabel (.shift s'.nextId id)) (checkExpression 0 source) with
    hrejected | ⟨tree, distances, distances', hresult, hresult'⟩
  · rw [← eq, ← eq'] at hrejected
    exact perform_rejected_twins h hle hle' hrejected _ _
  · rw [← eq] at hresult
    rw [← eq'] at hresult'
    obtain ⟨hadmits, hbound⟩ := bound_of_checkExpression (m := s.idle) h.fresh hresult
    obtain ⟨hadmits', hbound'⟩ := bound_of_checkExpression (m := s'.idle) h.fresh' hresult'
    refine perform_admitted_twins h hresult hresult' hadmits hadmits' ?_
      fun σ b b' (htext : b'.text σ.right.heap = b.text σ.left.heap) => congrArg some htext
    rintro tie σ rfl hσ hcurrent
    have twin := Expr.Bound.twin (relines_shift _ _ _ _) tree hbound hbound'
    exact (evaluate_agree (fun _ _ => trivial) fuel hσ hcurrent twin).mono
      fun σ' b b' _ hb hσ' => Value.Like.text (codes_keeps _ σ') hσ'.heap hb

/-! ## Requests -/

/-- What is offered to twins, and what they can read, keeps them twins. -/
theorem Session.Twins.of_machines (h : s.Twins s') {m m' : Machine} {labels : FrameId → Renaming}
    (hmachines : Pair.Twins (tie (s.machine.record s.nextId) (s'.machine.record s'.nextId))
      ⟨labels, Session.idle ⟨m, s.nextId⟩, Session.idle ⟨m', s'.nextId⟩⟩)
    (hcurrent : m.current = s.machine.current) (hdistances : m.distances = s.machine.distances)
    (hdistances' : m'.distances = s'.machine.distances) :
    Session.Twins ⟨m, s.nextId⟩ ⟨m', s'.nextId⟩ := by
  have record : m.record s.nextId = s.machine.record s.nextId := by
    rw [Machine.record, hdistances]
    rfl
  have record' : m'.record s'.nextId = s'.machine.record s'.nextId := by
    rw [Machine.record, hdistances']
    rfl
  refine ⟨⟨labels, ?_⟩, hcurrent.trans h.current, ?_, ?_⟩
  · rw [record, record']
    exact hmachines
  · simpa only [hdistances] using h.fresh
  · simpa only [hdistances'] using h.fresh'

theorem offer_twins (h : s.Twins s') {offered : HostOffer} (hoffered : offered.action.Blind) :
    (s.handle (.offer offered)).Twins (s'.handle (.offer offered)) := by
  obtain ⟨labels, hmachines⟩ := h.machines
  exact h.of_machines (hmachines.offer hoffered) rfl rfl rfl

/-- Whatever twins are asked for, the same is seen of both, and they are twins again. -/
theorem handle_twins (h : s.Twins s') {request : Request} (hrequest : request.Blind) :
    (s.handle request).Twins (s'.handle request) ∧ s'.observe request = s.observe request := by
  cases request with
  | run fuel source => exact run_twins h fuel source
  | evaluate fuel source => exact evaluate_twins h fuel source
  | offer offered => exact ⟨offer_twins h hrequest, rfl⟩
  | input bytes =>
    obtain ⟨labels, hmachines⟩ := h.machines
    have world : { s'.machine.world with input := bytes } = { s.machine.world with input := bytes } :=
      congrArg (World.mk bytes) (congrArg World.clock hmachines.world)
    have after : Pair.Twins (tie (s.machine.record s.nextId) (s'.machine.record s'.nextId))
        ⟨labels, (s.withInput bytes).idle, (s'.withInput bytes).idle⟩ :=
      And.right (hmachines.of_same rfl rfl rfl rfl hmachines.current rfl rfl rfl rfl hmachines.sink
        world hmachines.nextIdentity)
    exact ⟨h.of_machines after rfl rfl rfl, rfl⟩

/-! ## Sessions of their own -/

/-- The functions that are always there look at no argument. -/
theorem standard_blind : ∀ offered ∈ HostOffer.standard, offered.action.Blind := by
  refine List.forall_mem_cons.mpr ⟨?_, List.forall_mem_singleton.mpr ?_⟩
  · intro R _ heap heap' world arguments arguments' _ _
    exact ⟨rfl, .ok (.number _)⟩
  · intro R _ heap heap' world arguments arguments' _ _
    refine ⟨rfl, ?_⟩
    dsimp only [HostOffer.readLine]
    split
    · exact .ok .nil
    · dsimp only
      split
      · exact .ok (.string _)
      · exact .error _

theorem blank_twins (sink : Sink) (world : World) :
    Session.Twins (.start (.blank sink world)) (.start (.blank sink world)) := by
  refine ⟨⟨fun _ => .same, ?_⟩, rfl, fun _ _ => Std.TreeMap.getElem?_emptyc,
    fun _ _ => Std.TreeMap.getElem?_emptyc⟩
  refine ⟨Nat.one_pos, rfl, fun _ => rfl, rfl, ?_, ?_, ?_, rfl, fun _ => rfl, fun _ => rfl, rfl, ?_,
    Sink.behind_start _, rfl, rfl⟩
  · intro id name
    show Option.Rel _ ((Frames.start : Frames Value).local? id name)
      ((Frames.start : Frames Value).local? id _)
    rw [Frames.local?_start, Frames.local?_start]
    exact .none
  · intro v hv
    cases (Frames.local?_start _ _).symm.trans hv
  · exact ⟨rfl, fun _ => .none⟩
  · exact fun action haction => absurd haction (Array.not_mem_empty action)

theorem start_twins (sink : Sink) (world : World) :
    Session.Twins (.start (.start sink world)) (.start (.start sink world)) := by
  obtain ⟨hclock, hmore⟩ := List.forall_mem_cons.mp standard_blind
  exact offer_twins (offer_twins (blank_twins sink world) hclock)
    (hmore _ (List.mem_singleton_self _))

/-- A session that offers only functions that do not see code is its own twin. -/
theorem after_twins (h : s.Twins s') {requests : List Request}
    (hrequests : ∀ request ∈ requests, request.Blind) :
    (requests.foldl Session.handle s).Twins (requests.foldl Session.handle s') := by
  induction requests generalizing s s' with
  | nil => exact h
  | cons first more ih =>
    obtain ⟨hfirst, hmore⟩ := List.forall_mem_cons.mp hrequests
    exact ih (handle_twins h hfirst).1 hmore

end

end Lox
