import Lox.Proofs.Session.Restoring
import Mathlib

/-!
# Identities of occurrences

The numbers that parsers give to occurrences come from one counter, which is never set back. So however
many token lists are read, by a session or beside it, no two occurrences in what is read have the same
identity. A session keeps the distances of occurrences under their identities. The distances that a unit
brings in are therefore new, and stay what they are whatever comes later (`identities_apart`).
-/

namespace Lox

variable {α : Type}

/-! ## What happens -/

/-- What happens around a session: it is asked for something, or a list of tokens is read elsewhere with
the same counter. -/
inductive Event where
  | request (request : Request)
  | readProgram (tokens : List Token)
  | readExpression (tokens : List Token)

/-- The occurrences in the tree that a parser gives; there is none if it fails. -/
def Parser.Outcome.occurrences (outcome : Parser.Outcome α) (inside : α → List Occurrence) :
    List Occurrence :=
  match outcome.result with
  | .ok tree => inside tree
  | .error _ => []

namespace Session

/-- The session after an event. -/
def next (s : Session) : Event → Session
  | .request request => s.handle request
  | .readProgram tokens => { s with nextId := (parseProgram s.nextId tokens).nextId }
  | .readExpression tokens => { s with nextId := (parseExpression s.nextId tokens).nextId }

/-- The occurrences in the tree that is read in an event, also if the unit is rejected later on. -/
def read (s : Session) : Event → List Occurrence
  | .request (.run _ source) =>
    (parseProgram s.nextId (tokensOf source)).occurrences Stmt.occurrencesIn
  | .request (.evaluate _ source) =>
    (parseExpression s.nextId (tokensOf source)).occurrences Expr.occurrences
  | .request (.offer _) | .request (.input _) => []
  | .readProgram tokens => (parseProgram s.nextId tokens).occurrences Stmt.occurrencesIn
  | .readExpression tokens => (parseExpression s.nextId tokens).occurrences Expr.occurrences

/-- The distances of the unit that is admitted in an event, if there is one. -/
def found (s : Session) : Event → Distances
  | .request (.run _ source) => (checkProgram s.nextId source).found
  | .request (.evaluate _ source) => (checkExpression s.nextId source).found
  | .request (.offer _) | .request (.input _) | .readProgram _ | .readExpression _ => []

/-- How many of the occurrences that are read in an event are bound to a scope. -/
def bound (s : Session) (event : Event) : Nat :=
  (s.read event).countP fun o => o.id ∈ (s.found event).map (·.1)

/-- Events, each with the session to which it happens. -/
def trace : Session → List Event → List (Session × Event)
  | _, [] => []
  | s, event :: more => (s, event) :: (s.next event).trace more

/-- The session after some events. -/
def afterEvents (s : Session) (events : List Event) : Session := events.foldl next s

theorem trace_append (s : Session) (events more : List Event) :
    s.trace (events ++ more) = s.trace events ++ (s.afterEvents events).trace more := by
  induction events generalizing s with
  | nil => rfl
  | cons event events ih => exact congrArg (_ :: ·) (ih (s.next event))

end Session

/-! ## What is read is numbered -/

/-- A parser numbers the occurrences of what it reads, and never gives a number back. -/
structure Numbers (parse : OccurrenceId → List Token → Parser.Outcome α)
    (inside : α → List Occurrence) : Prop where
  le : ∀ n tokens, n ≤ (parse n tokens).nextId
  numbered : ∀ {n n' : OccurrenceId} {tokens : List Token} {tree : α},
    parse n tokens = ⟨.ok tree, n'⟩ → ∃ ts, Numbered n n' ts (inside tree)

theorem parseProgram_numbers : Numbers parseProgram Stmt.occurrencesIn where
  le := Parser.nextId_le_run Parser.program
  numbered h := ⟨_, numbered_of_declarations (parseProgram_eq_ok.mp h)⟩

theorem parseExpression_numbers : Numbers parseExpression Expr.occurrences where
  le := Parser.nextId_le_run _
  numbered h := ⟨_, numbered_of_reads (parseExpression_eq_ok.mp h)⟩

theorem Numbers.read {parse : OccurrenceId → List Token → Parser.Outcome α}
    {inside : α → List Occurrence} (h : Numbers parse inside) (n : OccurrenceId)
    (tokens : List Token) :
    ∃ ts, Numbered n (parse n tokens).nextId ts ((parse n tokens).occurrences inside) := by
  have le := h.le n tokens
  cases hparse : parse n tokens with
  | mk result n' =>
    rw [hparse] at le
    cases result with
    | ok tree => exact h.numbered hparse
    | error errors => exact ⟨[], (Numbered.nil n' []).widen le⟩

/-- Distances are found for occurrences in the tree only. -/
theorem found_subperm {parse : OccurrenceId → List Token → Parser.Outcome α}
    {resolve : α → Except (List ScopeError) Distances} {inside : α → List Occurrence}
    (hresolve : ∀ {tree : α} {distances : Distances}, resolve tree = .ok distances →
      (distances.map (·.1)).Subperm ((inside tree).map (·.id)))
    (n : OccurrenceId) (source : String) :
    ((check parse resolve n source).found.map (·.1)).Subperm
      (((parse n (tokensOf source)).occurrences inside).map (·.id)) := by
  cases hresult : (check parse resolve n source).result with
  | error diagnostics =>
    rw [found_of_error hresult]
    exact List.nil_subperm
  | ok unit =>
    obtain ⟨tree, distances⟩ := unit
    obtain ⟨-, hparse, hresolved⟩ := check_ok hresult
    rw [found_of_ok hresult, hparse]
    exact hresolve hresolved

/-! ## Steps of a session -/

/-- The session is between two events: outside of all scopes, and without distances for occurrences to
come. -/
structure Session.Ready (s : Session) : Prop where
  current : s.machine.current = Frames.globalId
  fresh : ∀ id, s.nextId ≤ id → s.machine.distances[id]? = none

/-- From one session to the other, `read` is all that was read and `found` are all distances that were
taken over. -/
structure Session.Advances (s s' : Session) (read : List Occurrence) (found : Distances) :
    Prop where
  numbered : ∃ ts, Numbered s.nextId s'.nextId ts read
  found_subperm : (found.map (·.1)).Subperm (read.map (·.id))
  distances : s'.machine.distances = (s.machine.adopt found).distances
  current : s'.machine.current = s.machine.current

namespace Session.Advances

variable {s s' s'' : Session} {read read' : List Occurrence} {found found' : Distances}

theorem refl (s : Session) : s.Advances s [] [] :=
  ⟨⟨[], .nil s.nextId []⟩, .refl _, rfl, rfl⟩

/-- Where nothing is read, there is nothing to find. -/
theorem of_same (hnextId : s'.nextId = s.nextId)
    (hdistances : s'.machine.distances = s.machine.distances)
    (hcurrent : s'.machine.current = s.machine.current) : s.Advances s' [] [] :=
  ⟨⟨[], hnextId ▸ .nil s.nextId []⟩, .refl _, hdistances, hcurrent⟩

theorem trans (h : s.Advances s' read found) (h' : s'.Advances s'' read' found') :
    s.Advances s'' (read ++ read') (found ++ found') where
  numbered := by
    obtain ⟨ts, hread⟩ := h.numbered
    obtain ⟨us, hread'⟩ := h'.numbered
    exact ⟨ts ++ us, (hread.left us).append (hread'.right ts)⟩
  found_subperm := by
    rw [List.map_append, List.map_append]
    exact h.found_subperm.append h'.found_subperm
  distances := by
    rw [h'.distances]
    simp only [Machine.adopt, h.distances, List.foldl_append]
  current := h'.current.trans h.current

theorem nodup (h : s.Advances s' read found) : (found.map (·.1)).Nodup := by
  obtain ⟨ts, hread⟩ := h.numbered
  exact distances_nodup hread h.found_subperm

/-- What is on record afterwards. -/
theorem distance_iff (h : s.Advances s' read found) (id : OccurrenceId) (d : Nat) :
    s'.machine.distances[id]? = some d ↔
      (id, d) ∈ found ∨ id ∉ found.map (·.1) ∧ s.machine.distances[id]? = some d := by
  rw [h.distances]
  exact getElem?_insert_all h.nodup s.machine.distances id d

/-- Earlier occurrences keep their distances, and get none if they had none. -/
theorem distance_eq (h : s.Advances s' read found) {id : OccurrenceId} (hid : id < s.nextId) :
    s'.machine.distances[id]? = s.machine.distances[id]? := by
  obtain ⟨ts, hread⟩ := h.numbered
  have new : id ∉ found.map (·.1) := fun hmem =>
    absurd (distances_within hread h.found_subperm id hmem).1 (Nat.not_le_of_lt hid)
  have absent (d : Nat) : (id, d) ∉ found := fun hmem => new (List.mem_map_of_mem hmem)
  refine Option.ext fun d => (h.distance_iff id d).trans ?_
  simp only [absent, new, not_false_eq_true, true_and, false_or]

theorem ready (hs : s.Ready) (h : s.Advances s' read found) : s'.Ready where
  current := h.current.trans hs.current
  fresh id hid := by
    obtain ⟨ts, hread⟩ := h.numbered
    rw [h.distances]
    exact fresh_adopt hread h.found_subperm hs.fresh id hid

/-- The occurrences that were read have the distances that were found for them, and no others. -/
theorem found_iff (hs : s.Ready) (h : s.Advances s' read found) {o : Occurrence} (ho : o ∈ read)
    (d : Nat) : s'.machine.distances[o.id]? = some d ↔ (o.id, d) ∈ found := by
  obtain ⟨ts, hread⟩ := h.numbered
  rw [h.distance_iff, hs.fresh o.id (hread.within o ho).1]
  simp

/-- Each occurrence with a distance counts. -/
theorem length_found (h : s.Advances s' read found) :
    found.length = read.countP fun o => o.id ∈ found.map (·.1) := by
  obtain ⟨ts, hread⟩ := h.numbered
  -- both sides are without repetitions, so it is enough that they have the same members
  have among : (found.map (·.1)).Perm ((read.map (·.id)).filter (· ∈ found.map (·.1))) := by
    refine (List.perm_ext_iff_of_nodup h.nodup (hread.nodup.filter _)).mpr fun id => ?_
    rw [List.mem_filter, decide_eq_true_iff]
    exact ⟨fun hid => ⟨h.found_subperm.subset hid, hid⟩, And.right⟩
  rw [← List.length_map (·.1), among.length_eq, ← List.countP_eq_length_filter, List.countP_map]
  rfl

/-- Distances of occurrences that have none yet add to their number. -/
theorem size_insert_all {distances : Distances} (hnodup : (distances.map (·.1)).Nodup)
    {all : Std.TreeMap OccurrenceId Nat} (hnew : ∀ id ∈ distances.map (·.1), all[id]? = none) :
    (distances.foldl (fun all (id, d) => all.insert id d) all).size =
      all.size + distances.length := by
  induction distances generalizing all with
  | nil => rfl
  | cons pair more ih =>
    obtain ⟨id, d⟩ := pair
    obtain ⟨hlacks, hnodup⟩ := List.nodup_cons.mp hnodup
    obtain ⟨hfirst, hmore⟩ := List.forall_mem_cons.mp hnew
    have absent : all.contains id = false := by
      rw [Std.TreeMap.contains_eq_isSome_getElem?]
      exact Option.isSome_eq_false_iff.mpr (Option.isNone_iff_eq_none.mpr hfirst)
    have later : ∀ id' ∈ more.map (·.1), (all.insert id d)[id']? = none := by
      intro id' hid'
      have hne : id ≠ id' := fun same => hlacks (same ▸ hid')
      rw [Std.TreeMap.getElem?_insert]
      simpa [hne] using hmore id' hid'
    rw [List.foldl_cons, ih hnodup later, Std.TreeMap.size_insert]
    simp only [absent, Bool.false_eq_true, if_false, List.length_cons]
    omega

/-- The bound occurrences that were read come to those before. -/
theorem boundOccurrences_eq (hs : s.Ready) (h : s.Advances s' read found) :
    s'.machine.boundOccurrences = s.machine.boundOccurrences +
      read.countP fun o => o.id ∈ found.map (·.1) := by
  obtain ⟨ts, hread⟩ := h.numbered
  have new : ∀ id ∈ found.map (·.1), s.machine.distances[id]? = none :=
    fun id hid => hs.fresh id (distances_within hread h.found_subperm id hid).1
  rw [← h.length_found]
  unfold Machine.boundOccurrences
  rw [h.distances]
  exact size_insert_all h.nodup new

end Session.Advances

/-! ## One event -/

section

variable {s : Session}

/-- The numbering goes on behind a unit where its parser stopped, whatever came of the unit. -/
theorem perform_nextId {β : Type} (checked : Checked α) (action : α → Run β) :
    (s.perform checked action).2.nextId = checked.nextId := by
  cases hresult : checked.result with
  | error diagnostics => rw [perform_rejected hresult]
  | ok unit =>
    cases hrun : action unit.1 (s.idle.adopt unit.2) with
    | ok b m => rw [perform_done hresult hrun]
    | error interrupt m => rw [perform_interrupted hresult hrun]

/-- Whatever happens to a session, it goes on by what is read and what is found. -/
theorem next_advances (hs : s.Ready) (event : Event) :
    s.Advances (s.next event) (s.read event) (s.found event) := by
  cases event with
  | readProgram tokens =>
    exact ⟨parseProgram_numbers.read s.nextId tokens, List.nil_subperm, rfl, rfl⟩
  | readExpression tokens =>
    exact ⟨parseExpression_numbers.read s.nextId tokens, List.nil_subperm, rfl, rfl⟩
  | request request =>
    cases request with
    | run fuel source =>
      have spared := run_spared hs.current fuel source
      have numbered := parseProgram_numbers.read s.nextId (tokensOf source)
      exact ⟨(perform_nextId ..).symm ▸ numbered,
        found_subperm Resolution.ids_of_resolveProgram s.nextId source, spared.distances,
        spared.current⟩
    | evaluate fuel source =>
      have spared := evaluate_spared hs.current fuel source
      have numbered := parseExpression_numbers.read s.nextId (tokensOf source)
      exact ⟨(perform_nextId ..).symm ▸ numbered,
        found_subperm Resolution.ids_of_resolveExpression s.nextId source, spared.distances,
        spared.current⟩
    | offer offered => exact .of_same rfl rfl rfl
    | input bytes => exact .of_same rfl rfl rfl

theorem next_ready (hs : s.Ready) (event : Event) : (s.next event).Ready :=
  (next_advances hs event).ready hs

end

/-! ## All events -/

section

variable {s : Session}

theorem afterEvents_advances (hs : s.Ready) (events : List Event) :
    s.Advances (s.afterEvents events) ((s.trace events).flatMap fun (s, event) => s.read event)
      ((s.trace events).flatMap fun (s, event) => s.found event) := by
  induction events generalizing s with
  | nil => exact .refl s
  | cons event more ih => exact (next_advances hs event).trans (ih (next_ready hs event))

/-- What was found for the occurrences that are read in an event is on record at the end. -/
theorem found_of_mem_trace (hs : s.Ready) {events : List Event} {before : Session} {event : Event}
    (hmem : (before, event) ∈ s.trace events) {o : Occurrence} (ho : o ∈ before.read event)
    (d : Nat) :
    (s.afterEvents events).machine.distances[o.id]? = some d ↔ (o.id, d) ∈ before.found event := by
  induction events generalizing s with
  | nil => nomatch hmem
  | cons first more ih =>
    have advances := next_advances hs first
    have ready := next_ready hs first
    rcases List.mem_cons.mp hmem with hfirst | hmore
    · obtain ⟨rfl, rfl⟩ := Prod.mk.inj hfirst
      obtain ⟨ts, hread⟩ := advances.numbered
      -- everything later is numbered above, so it leaves the distance alone
      have kept := (afterEvents_advances ready more).distance_eq (hread.within o ho).2
      exact kept ▸ advances.found_iff hs ho d
    · exact ih ready hmore

theorem boundOccurrences_afterEvents (hs : s.Ready) (events : List Event) :
    (s.afterEvents events).machine.boundOccurrences = s.machine.boundOccurrences +
      ((s.trace events).map fun (s, event) => s.bound event).sum := by
  induction events generalizing s with
  | nil => rfl
  | cons event more ih =>
    have step := (next_advances hs event).boundOccurrences_eq hs
    have rest := ih (next_ready hs event)
    show ((s.next event).afterEvents more).machine.boundOccurrences = _
    rw [rest, step]
    exact Nat.add_assoc ..

end

theorem start_ready (sink : Sink) (world : World) : (Session.start (.start sink world)).Ready :=
  ⟨rfl, fun _ _ => Std.TreeMap.getElem?_emptyc⟩

/-- However many lists of tokens are read, by a session or beside it, the occurrences in what is read
differ in their identities. So the distances that were found for an occurrence, and no others, are on
record for it, whatever else happens; and there are as many distances on record as bound occurrences in
all admitted units. -/
theorem identities_apart (sink : Sink) (world : World) (events : List Event) :
    let start := Session.start (.start sink world)
    (((start.trace events).flatMap fun (s, event) => s.read event).map (·.id)).Nodup ∧
      (∀ s event, (s, event) ∈ start.trace events → ∀ o ∈ s.read event, ∀ more d,
        (start.afterEvents (events ++ more)).machine.distances[o.id]? = some d ↔
          (o.id, d) ∈ s.found event) ∧
      (start.afterEvents events).machine.boundOccurrences =
        ((start.trace events).map fun (s, event) => s.bound event).sum := by
  have ready := start_ready sink world
  refine ⟨?_, ?_, ?_⟩
  · obtain ⟨ts, hread⟩ := (afterEvents_advances ready events).numbered
    exact hread.nodup
  · intro s event hmem o ho more d
    refine found_of_mem_trace ready ?_ ho d
    rw [Session.trace_append]
    exact List.mem_append_left _ hmem
  · exact (boundOccurrences_afterEvents ready events).trans (Nat.zero_add _)

end Lox
