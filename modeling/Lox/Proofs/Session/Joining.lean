import Lox.Proofs.Parser.Program
import Lox.Proofs.Resolution.Joining
import Lox.Proofs.Session.Twins

/-!
# One unit or two

Two sources that pass their checks can be run as one unit or one after the other. As one unit they pass
as well: the program of the second source stands behind that of the first, on lines further down
(`checkProgram_join`). And it makes no difference to what a session does (`run_join`).
-/

namespace Lox

/-! ## Checks -/

/-- A source that passes the checks of a program. -/
def PassesAsProgram (source : String) : Prop :=
  ∃ unit, (checkProgram 0 source).result = .ok unit

/-- What passes, passes with any identities. -/
theorem PassesAsProgram.at {source : String} (h : PassesAsProgram source) (n : OccurrenceId) :
    ∃ program distances, (checkProgram n source).result = .ok (program, distances) := by
  obtain ⟨⟨program, distances⟩, h⟩ := h
  have eq := checkProgram_add 0 n source
  rw [Nat.zero_add] at eq
  rw [eq, Checked.renumber, h]
  exact ⟨_, _, rfl⟩

/-- What is read behind something else continues it. -/
theorem declarations_append {n n₁ n₂ : Nat} {ts us : List Token} {body more : List Stmt} :
    ReadsDeclarations n ts body n₁ → ReadsDeclarations n₁ us more n₂ →
      ReadsDeclarations n (ts ++ us) (body ++ more) n₂
  | .nil, h => h
  | .cons hfirst hrest, h => by
    rw [List.append_assoc]
    exact .cons hfirst (declarations_append hrest h)

/-- On lines further down. -/
def Relabeling.down (shift : Nat) : Relabeling := .lines (· + shift)

/-- On other lines, tokens are read as the same declarations on these lines. -/
theorem declarations_relined {n n' : Nat} {source : String} {body : List Stmt}
    (h : ReadsDeclarations n (wordsOf source) body n') (line : Nat → Nat) :
    ReadsDeclarations n ((wordsOf source).map (Token.relined line))
      (Stmt.relabelAll (.lines line) body) n' := by
  have parsed := parseProgram_relabel (Relabeling.steady_lines line) n (exists_eof source)
  rw [parseProgram_eq_ok.mpr h] at parsed
  have reads := parseProgram_eq_ok.mp parsed
  rwa [List.takeWhile_map] at reads

/-- Distances have nothing to do with lines. -/
theorem relabelFound_down (shift : Nat) (distances : Distances) :
    Resolution.relabelFound (.down shift) (.ok distances) = .ok distances :=
  congrArg Except.ok (List.map_id _)

/-- Two sources that pass their checks pass them as one. The second program stands behind the first one,
with the same identities as if it were checked by itself, on lines further down. -/
theorem checkProgram_join {n : OccurrenceId} {first second : String} {program more : List Stmt}
    {distances distances' : Distances}
    (h : (checkProgram n first).result = .ok (program, distances))
    (h' : (checkProgram (checkProgram n first).nextId second).result = .ok (more, distances')) :
    checkProgram n (first ++ "\n" ++ second) =
      ⟨.ok (program ++ Stmt.relabelAll (.down (linesOf first)) more, distances' ++ distances),
        (checkProgram (checkProgram n first).nextId second).nextId⟩ := by
  obtain ⟨hlexical, hparsed, hresolved⟩ := check_ok h
  obtain ⟨hlexical', hparsed', hresolved'⟩ := check_ok h'
  have reads := parseProgram_eq_ok.mp hparsed
  have reads' := declarations_relined (parseProgram_eq_ok.mp hparsed') (· + linesOf first)
  have resolved' := Resolution.resolveProgram_relabel (.down (linesOf first)) more
  rw [hresolved'] at resolved'
  rw [relabelFound_down] at resolved'
  refine check_eq (lexicalIssuesOf_join_nil hlexical hlexical') (parseProgram_eq_ok.mpr ?_)
    (Resolution.resolveProgram_append hresolved resolved')
  show ReadsDeclarations n (wordsOf (first ++ "\n" ++ second)) _ _
  rw [wordsOf_join (stringsClosed_of_quiet hlexical)]
  exact declarations_append reads reads'

/-! ## Lines of tokens -/

/-- The lines of the tokens of a source. -/
def tokenLines (source : String) : List Nat := (tokensOf source).map (·.line)

open Classical in
/-- A line if it is one of a token of a source, and another one if it is not. -/
noncomputable def nearLine (source : String) (line : Nat) : Nat :=
  if line ∈ tokenLines source then line else (tokenLines source).headD line

theorem nearLine_mem (source : String) (line : Nat) : nearLine source line ∈ tokenLines source := by
  unfold nearLine
  split
  · assumption
  · obtain ⟨token, hmem, -⟩ := exists_eof source
    have line : token.line ∈ tokenLines source := List.mem_map_of_mem hmem
    cases hlines : tokenLines source with
    | nil =>
      rw [hlines] at line
      nomatch line
    | cons first more => exact List.mem_cons_self

/-- A program has no other lines than its tokens. -/
theorem relabel_nearLine {n : OccurrenceId} {source : String} {program : List Stmt}
    {distances : Distances} (h : (checkProgram n source).result = .ok (program, distances)) :
    Stmt.relabelAll (.lines (nearLine source)) program = program := by
  obtain ⟨-, hparsed, -⟩ := check_ok h
  have parsed := parseProgram_relabel (Relabeling.steady_lines (nearLine source)) n (exists_eof source)
  have tokens : (tokensOf source).map (Relabeling.lines (nearLine source)).token = tokensOf source := by
    refine (List.map_congr_left fun token htoken => ?_).trans (List.map_id _)
    have near : nearLine source token.line = token.line :=
      if_pos (List.mem_map_of_mem htoken)
    show { token with line := nearLine source token.line } = token
    rw [near]
  have id : (Relabeling.lines (nearLine source)).id n = n := rfl
  rw [tokens, id, hparsed] at parsed
  injection parsed with parsed
  injection parsed with parsed
  exact parsed.symm

/-! ## Runs -/

namespace Run

theorem interpret_append (fuel : Nat) (program more : List Stmt) (m : Machine) :
    interpret fuel (program ++ more) m =
      match interpret fuel program m with
      | .ok _ m' => interpret fuel more m'
      | .error interrupt m' => .error interrupt m' := by
  induction program generalizing m with
  | nil => rfl
  | cons first rest ih =>
    simp only [List.cons_append, interpret]
    cases execute fuel first m with
    | ok completion m' => exact ih m'
    | error interrupt m' => rfl

end Run

theorem boundAll_append {record : Record} {body more : List Stmt} :
    Stmt.BoundAll record [] (body ++ more) →
      Stmt.BoundAll record [] body ∧ Stmt.BoundAll record [] more := by
  induction body with
  | nil => exact fun h => ⟨trivial, h⟩
  | cons first rest ih =>
    rintro ⟨hfirst, hrest⟩
    have outside : first.after [] = [] := by
      unfold Stmt.after
      cases first.declared? <;> rfl
    rw [outside] at hrest
    obtain ⟨hbody, hmore⟩ := ih hrest
    exact ⟨⟨hfirst, by rwa [outside]⟩, hmore⟩

/-! ## Distances -/

/-- Machines with the same distances have the same record. -/
theorem Machine.record_eq {m m' : Machine} {n : OccurrenceId}
    (h : ∀ id : OccurrenceId, m.distances[id]? = m'.distances[id]?) : m.record n = m'.record n := by
  unfold Machine.record
  congr
  exact funext h

/-- The distances of a program are those of different new occurrences. -/
theorem distances_of_checkProgram {n : OccurrenceId} {source : String} {program : List Stmt}
    {distances : Distances} (h : (checkProgram n source).result = .ok (program, distances)) :
    (distances.map (·.1)).Nodup ∧
      ∀ id ∈ distances.map (·.1), n ≤ id ∧ id < (checkProgram n source).nextId := by
  obtain ⟨-, hparsed, hresolved⟩ := check_ok h
  have hos := numbered_of_declarations (parseProgram_eq_ok.mp hparsed)
  have hids := Resolution.ids_of_resolveProgram hresolved
  exact ⟨distances_nodup hos hids, distances_within hos hids⟩

/-- Distances of different occurrences can be taken over together or one after the other. -/
theorem adopt_append {distances distances' : Distances}
    (hnodup : ((distances' ++ distances).map (·.1)).Nodup) {m m' : Machine}
    (h : ∀ id : OccurrenceId, m'.distances[id]? = (m.adopt distances).distances[id]?)
    (id : OccurrenceId) :
    (m.adopt (distances' ++ distances)).distances[id]? =
      (m'.adopt distances').distances[id]? := by
  have split := List.nodup_append.mp (List.map_append ▸ hnodup)
  apply Option.ext
  intro d
  refine (getElem?_insert_all hnodup m.distances id d).trans
    (Iff.trans ?_ (getElem?_insert_all split.1 m'.distances id d).symm)
  have first : (m.adopt distances).distances[id]? = some d ↔
      (id, d) ∈ distances ∨ id ∉ distances.map (·.1) ∧ m.distances[id]? = some d :=
    getElem?_insert_all split.2.1 m.distances id d
  rw [h, first]
  have apart : ∀ v, (id, v) ∈ distances → id ∉ distances'.map (·.1) := fun v hv hmem =>
    split.2.2 id hmem id (List.mem_map_of_mem hv) rfl
  simp only [List.mem_append, List.map_append, not_or]
  constructor
  · rintro ((hfirst | hsecond) | ⟨⟨hnot, hnot'⟩, hold⟩)
    · exact .inl hfirst
    · exact .inr ⟨apart d hsecond, .inl hsecond⟩
    · exact .inr ⟨hnot, .inr ⟨hnot', hold⟩⟩
  · rintro (hfirst | ⟨hnot, hsecond | ⟨hnot', hold⟩⟩)
    · exact .inl (.inl hfirst)
    · exact .inl (.inr hsecond)
    · exact .inr ⟨⟨hnot, hnot'⟩, hold⟩

theorem boundOccurrences_congr {m m' : Machine}
    (h : ∀ id : OccurrenceId, m.distances[id]? = m'.distances[id]?) :
    m.boundOccurrences = m'.boundOccurrences :=
  (Std.TreeMap.Equiv.of_forall_constGet?_eq h).size_eq

/-! ## One unit or two -/

/-- What was printed so far counts towards the limit of the sink. -/
def Session.goingOn (session : Session) : Session :=
  let sink := session.machine.sink
  let rest := sink.limit.map (· - sink.text.toList.count '\n')
  { session with machine := { session.machine with sink := { sink with limit := rest } } }

/-- Without a limit there is nothing to count. -/
theorem Session.goingOn_of_unlimited {session : Session} (h : session.machine.sink.limit = none) :
    session.goingOn = session := by
  obtain ⟨⟨frames, heap, current, distances, actions, ⟨limit, text⟩, world, nextIdentity⟩, nextId⟩ :=
    session
  obtain rfl : limit = none := h
  rfl

/-- The session runs a program whose lines are further down than in its source. -/
def Session.runDown (fuel shift : Nat) (session : Session) (source : String) :
    Outcome Unit × Session :=
  session.perform ((checkProgram session.nextId source).renumber 0 (Stmt.relabelAll (.down shift)))
    (Run.interpret fuel)

/-- A line in the joint unit and the line for it in the second source, or any line of other code. -/
def JoinedLines (first second : String) (line line' : Nat) : Prop :=
  line = line' ∨ line' ∈ tokenLines second ∧ line = line' + linesOf first

/-- Units end alike, but for the lines of faults. -/
inductive EndsAlike (line : Nat → Nat → Prop) : Outcome Unit → Outcome Unit → Prop
  | done : EndsAlike line (.done ()) (.done ())
  | runtime {n n' : Nat} (fault : Fault) : line n n' →
      EndsAlike line (.failed (.stopped (.runtime n fault))) (.failed (.stopped (.runtime n' fault)))
  | refusal : EndsAlike line (.failed (.stopped Sink.refusal)) (.failed (.stopped Sink.refusal))
  | exhausted : EndsAlike line .exhausted .exhausted

/-- What is known of a joint unit on the left and its second source on the right: the joint unit has
printed something before. -/
def joinedTie (line : Nat → Nat → Prop) (before : String) (left right : Record) : Tie where
  left := left
  right := right
  line := line
  before := before
  promise _ _ := True

/-- Two machines are the same, but for lines and for what the left one has printed before. -/
def JoinedMachines (line : Nat → Nat → Prop) (before : String) (m m' : Machine) : Prop :=
  ∃ labels left right, Pair.Twins (joinedTie line before left right) ⟨labels, m, m'⟩

/-- The same values are bound to the same names, as far as a program can tell. -/
def SameGlobals (m m' : Machine) : Prop :=
  ∀ name, Option.Rel (fun v v' => v'.text m'.heap = v.text m.heap)
    (m.frames.local? Frames.globalId name) (m'.frames.local? Frames.globalId name)

/-- What a joint unit comes to, if it has come to the end of its first source, and what the second
source comes to behind the first. -/
structure ContinuesAs (line : Nat → Nat → Prop) (before : String)
    (joint behind : Outcome Unit × Session) : Prop where
  ends : EndsAlike line joint.1 behind.1
  printed : joint.2.printed = before ++ behind.2.printed
  machines : JoinedMachines line before joint.2.machine behind.2.machine
  globals : SameGlobals joint.2.machine behind.2.machine
  boundOccurrences : joint.2.machine.boundOccurrences = behind.2.machine.boundOccurrences

/-- To run two sources as one unit is to run one after the other. Either the first does not come to its
end, and then nothing of the second is run; or the second goes on where the first has come to, and
everything is the same if its lines are further down. As it is, only these lines differ. -/
structure Joins (fuel : Nat) (session : Session) (first second : String) : Prop where
  admitted : ∃ program more distances distances',
    (checkProgram session.nextId first).result = .ok (program, distances) ∧
      (checkProgram (session.run fuel first).2.nextId second).result = .ok (more, distances') ∧
      (checkProgram session.nextId (first ++ "\n" ++ second)).result =
        .ok (program ++ Stmt.relabelAll (.down (linesOf first)) more, distances' ++ distances)
  stopped : (session.run fuel first).1 ≠ .done () →
    (session.run fuel (first ++ "\n" ++ second)).1 = (session.run fuel first).1 ∧
      (session.run fuel (first ++ "\n" ++ second)).2.printed = (session.run fuel first).2.printed ∧
      (session.run fuel (first ++ "\n" ++ second)).2.Twins (session.run fuel first).2
  finished : (session.run fuel first).1 = .done () →
    ContinuesAs Eq (session.run fuel first).2.printed
        (session.run fuel (first ++ "\n" ++ second))
        ((session.run fuel first).2.goingOn.runDown fuel (linesOf first) second) ∧
      ContinuesAs (JoinedLines first second) (session.run fuel first).2.printed
        (session.run fuel (first ++ "\n" ++ second))
        ((session.run fuel first).2.goingOn.run fuel second)

theorem EndsAlike.of_interrupts {line : Nat → Nat → Prop} {before : String} {left right : Record}
    {i i' : Interrupt} (h : (joinedTie line before left right).Interrupts i i') :
    EndsAlike line (.ofInterrupt i) (.ofInterrupt i') := by
  cases h with
  | runtime fault hline => exact .runtime fault hline
  | refusal => exact .refusal
  | exhausted => exact .exhausted

theorem Pair.Twins.sameGlobals {tie : Tie} {σ : Pair} (h : σ.Twins tie) :
    SameGlobals σ.left σ.right :=
  fun name => rel_mono (fun _ _ hv => hv.text (codes_keeps tie σ) h.heap) (h.local?_global name)

section

variable {s : Session} {first second : String} {program more : List Stmt}
variable {distances distances' : Distances}

/-- The lines of a program in the joint unit and in its own source belong together. -/
theorem twins_down {n : OccurrenceId}
    (hcheck : (checkProgram n second).result = .ok (more, distances'))
    {before : String} {left right : Record}
    (hleft : Stmt.BoundAll left [] (Stmt.relabelAll (.down (linesOf first)) more))
    (hright : Stmt.BoundAll right [] more) :
    Stmt.TwinAll (joinedTie (JoinedLines first second) before left right) []
      (Stmt.relabelAll (.down (linesOf first)) more) more := by
  -- a program has the lines of its tokens only, so all others can be taken for one of these
  have near := relabel_nearLine hcheck
  have further : Stmt.relabelAll ((Relabeling.down (linesOf first)).after (.lines (nearLine second)))
      more = Stmt.relabelAll (.down (linesOf first)) more := by
    rw [← Stmt.relabelAll_relabelAll, near]
  rw [← further] at hleft
  rw [← near] at hright
  have relines : (joinedTie (JoinedLines first second) before left right).Relines
      ((Relabeling.down (linesOf first)).after (.lines (nearLine second)))
      (.lines (nearLine second)) := fun line => .inr ⟨nearLine_mem second line, rfl⟩
  have twins := Stmt.Bound.twins relines more hleft hright
  rwa [further, near] at twins

/-- The second source goes on in twins of what the first has come to. -/
theorem twins_goingOn {line : Nat → Nat → Prop} (hline : ∀ n, line n n) {t : Session} {left : Record}
    {labels : FrameId → Renaming} {m : Machine}
    (h : Pair.Twins (Session.tie left (t.machine.record t.nextId)) ⟨labels, m, t.machine⟩)
    {n : OccurrenceId} (hadmits : Admits t.goingOn.idle t.nextId n distances') :
    Pair.Twins (joinedTie line t.printed left ((t.goingOn.idle.adopt distances').record n))
      ⟨labels, m, t.goingOn.idle.adopt distances'⟩ := by
  have text : m.sink.text = t.machine.sink.text := h.sink.text.trans String.empty_append
  have limit : t.machine.sink.limit = m.sink.limit := by
    have limit : t.machine.sink.limit = m.sink.limit.map (· - 0) := h.sink.limit
    rw [limit]
    cases m.sink.limit <;> rfl
  have lines : ∀ n n', (Session.tie left (t.machine.record t.nextId)).line n n' → line n n' := by
    rintro n _ rfl
    exact hline n
  refine h.extend ⟨⟨Nat.le_refl _, fun _ _ => rfl⟩, hadmits.extended, lines, ?_⟩ rfl rfl rfl
    rfl rfl h.current h.distances (fun _ => rfl) h.actions h.blind ⟨?_, ?_⟩ h.world h.nextIdentity
  · exact fun guards e m _ => guards e m trivial
  · exact text.trans String.append_empty.symm
  · show t.machine.sink.limit.map (· - t.machine.sink.text.toList.count '\n') = _
    rw [limit]
    rfl

/-- The distances of two sources that are checked one after the other are those of the joint unit. -/
theorem distances_join {n : OccurrenceId}
    (hcheck : (checkProgram n first).result = .ok (program, distances))
    (hcheck' : (checkProgram (checkProgram n first).nextId second).result = .ok (more, distances'))
    {m m' : Machine}
    (h : ∀ id : OccurrenceId, m'.distances[id]? = (m.adopt distances).distances[id]?)
    (id : OccurrenceId) :
    (m.adopt (distances' ++ distances)).distances[id]? = (m'.adopt distances').distances[id]? := by
  obtain ⟨hnodup, hwithin⟩ := distances_of_checkProgram hcheck
  obtain ⟨hnodup', hwithin'⟩ := distances_of_checkProgram hcheck'
  refine adopt_append ?_ h id
  rw [List.map_append]
  refine List.nodup_append.mpr ⟨hnodup', hnodup, ?_⟩
  rintro id hid _ hid' rfl
  exact absurd (hwithin id hid').2 (Nat.not_lt.mpr (hwithin' id hid).1)

/-- Where the first source has come to its end, twins of the second one go on alike. -/
theorem continues_of_twins {line : Nat → Nat → Prop} (hline : ∀ n, line n n) {t : Session}
    {left : Record} {labels : FrameId → Renaming} {m : Machine} {further behind : List Stmt}
    (h : Pair.Twins (Session.tie left (t.machine.record t.nextId)) ⟨labels, m, t.machine⟩)
    (hcurrent : m.current = Frames.globalId) {checked : Checked (List Stmt)}
    (hcheck : checked.result = .ok (behind, distances'))
    (hadmits : Admits t.goingOn.idle t.nextId checked.nextId distances')
    (htwins : Stmt.TwinAll (joinedTie line t.printed left
      ((t.goingOn.idle.adopt distances').record checked.nextId)) [] further behind)
    (hsame : ∀ id, left.distance? id = (t.goingOn.idle.adopt distances').distances[id]?)
    {fuel : Nat} {joint : Outcome Unit × Session}
    (hdone : ∀ m', Run.interpret fuel further m = .ok () m' → ∃ n, joint = (.done (), ⟨m', n⟩))
    (hinterrupted : ∀ i m', Run.interpret fuel further m = .error i m' →
      ∃ n, joint = (.ofInterrupt i, ⟨m', n⟩)) :
    ContinuesAs line t.printed joint (t.goingOn.perform checked (Run.interpret fuel)) := by
  obtain ⟨σ, hreach, hend⟩ := Agree.always (fun _ _ => trivial)
    (interpret_agree (fun _ _ => trivial) fuel (twins_goingOn hline h hadmits) hcurrent htwins)
  have boundOccurrences : σ.left.boundOccurrences = σ.right.boundOccurrences := by
    refine boundOccurrences_congr fun id => ?_
    rw [hreach.twins.distances, hreach.twins.distances']
    exact hsame id
  have machines : JoinedMachines line t.printed σ.left σ.right := ⟨_, _, _, hreach.twins⟩
  rcases hend with ⟨_, _, hrun, hrun', -⟩ | ⟨i, i', hrun, hrun', hi⟩
  · obtain ⟨n, rfl⟩ := hdone _ hrun
    rw [perform_done hcheck hrun']
    exact ⟨.done, hreach.twins.sink.text, machines, hreach.twins.sameGlobals, boundOccurrences⟩
  · obtain ⟨n, rfl⟩ := hinterrupted _ _ hrun
    rw [perform_interrupted hcheck hrun']
    exact ⟨.of_interrupts hi, hreach.twins.sink.text, machines, hreach.twins.sameGlobals,
      boundOccurrences⟩

/-- Where the first source has come to its end, the second one goes on as if its lines were further
down, and as it is but for these lines. -/
theorem finished_of_twins {t : Session} {left : Record} {labels : FrameId → Renaming} {m : Machine}
    (h : Pair.Twins (Session.tie left (t.machine.record t.nextId)) ⟨labels, m, t.machine⟩)
    (hcurrent : m.current = Frames.globalId)
    (hfresh : ∀ id, t.nextId ≤ id → t.machine.distances[id]? = none)
    (hcheck : (checkProgram t.nextId second).result = .ok (more, distances'))
    (hleft : left = (t.goingOn.idle.adopt distances').record (checkProgram t.nextId second).nextId)
    (hmore : Stmt.BoundAll left [] (Stmt.relabelAll (.down (linesOf first)) more))
    {fuel : Nat} {joint : Outcome Unit × Session}
    (hdone : ∀ m', Run.interpret fuel (Stmt.relabelAll (.down (linesOf first)) more) m = .ok () m' →
      ∃ n, joint = (.done (), ⟨m', n⟩))
    (hinterrupted : ∀ i m',
      Run.interpret fuel (Stmt.relabelAll (.down (linesOf first)) more) m = .error i m' →
        ∃ n, joint = (.ofInterrupt i, ⟨m', n⟩)) :
    ContinuesAs Eq t.printed joint (t.goingOn.runDown fuel (linesOf first) second) ∧
      ContinuesAs (JoinedLines first second) t.printed joint (t.goingOn.run fuel second) := by
  obtain ⟨hadmits, hbound⟩ := bound_of_checkProgram (m := t.goingOn.idle) hfresh hcheck
  have same : ∀ id, left.distance? id = (t.goingOn.idle.adopt distances').distances[id]? := by
    rw [hleft]
    exact fun _ => rfl
  have further : ((checkProgram t.nextId second).renumber 0
      (Stmt.relabelAll (.down (linesOf first)))).result =
        .ok (Stmt.relabelAll (.down (linesOf first)) more, distances') := by
    rw [Checked.renumber, hcheck]
    exact congrArg Except.ok (congrArg (Prod.mk _) (List.map_id _))
  constructor
  · refine continues_of_twins (fun _ => rfl) h hcurrent further hadmits ?_ same hdone hinterrupted
    exact Stmt.Bound.twins_self (fun _ => rfl) hmore (hleft ▸ hmore)
  · exact continues_of_twins (fun _ => .inl rfl) h hcurrent hcheck hadmits
      (twins_down hcheck hmore hbound) same hdone hinterrupted

theorem joins_of_twins (h : s.Twins s) (hfirst : PassesAsProgram first)
    (hsecond : PassesAsProgram second) (fuel : Nat) : Joins fuel s first second := by
  obtain ⟨program, distances, hcheck⟩ := hfirst.at s.nextId
  obtain ⟨more, distances', hcheck'⟩ := hsecond.at (checkProgram s.nextId first).nextId
  have hjoin := checkProgram_join hcheck hcheck'
  have hresult := congrArg Checked.result hjoin
  obtain ⟨hadmits, hbound⟩ := bound_of_checkProgram (m := s.idle) h.fresh hcheck
  obtain ⟨hjadmits, hjbound⟩ := bound_of_checkProgram (m := s.idle) h.fresh hresult
  obtain ⟨hprogram, hmore⟩ := boundAll_append hjbound
  obtain ⟨labels, hmachines⟩ := h.adopt hjadmits hadmits
  obtain ⟨σ, hreach, hend⟩ := Agree.always (fun _ _ => trivial)
    (interpret_agree (fun _ _ => trivial) fuel hmachines h.current
      (Stmt.Bound.twins_self (fun _ => rfl) hprogram hbound))
  have current : σ.left.current = Frames.globalId := hreach.current.trans h.current
  rcases hend with ⟨_, _, hrun, hrun', -⟩ | ⟨i, i', hrun, hrun', hi⟩
  · have ran : s.run fuel first = (.done (), ⟨σ.right, (checkProgram s.nextId first).nextId⟩) :=
      perform_done hcheck hrun'
    have joint : Run.interpret fuel (program ++ Stmt.relabelAll (.down (linesOf first)) more)
        (s.idle.adopt (distances' ++ distances)) =
          Run.interpret fuel (Stmt.relabelAll (.down (linesOf first)) more) σ.left := by
      rw [Run.interpret_append, hrun]
    refine ⟨⟨program, more, distances, distances', hcheck, ?_, hresult⟩, ?_, ?_⟩
    · rw [ran]
      exact hcheck'
    · rw [ran]
      exact fun hstopped => absurd rfl hstopped
    · have machines := hreach.twins
      rw [← Machine.record_eq hreach.twins.distances'] at machines
      rw [ran]
      refine fun _ => finished_of_twins (t := ⟨σ.right, (checkProgram s.nextId first).nextId⟩)
        machines current ?_ hcheck' ?_ hmore ?_ ?_
      · exact fun id hid => (hreach.twins.distances' id).trans (hadmits.fresh id hid)
      · rw [hjoin]
        exact (Machine.record_eq (distances_join hcheck hcheck' hreach.twins.distances'))
      · exact fun m' hm' => ⟨_, perform_done hresult (joint.trans hm')⟩
      · exact fun i m' hm' => ⟨_, perform_interrupted hresult (joint.trans hm')⟩
  · have ran : s.run fuel first =
        (.ofInterrupt i', ⟨σ.right, (checkProgram s.nextId first).nextId⟩) :=
      perform_interrupted hcheck hrun'
    have ran' : s.run fuel (first ++ "\n" ++ second) =
        (.ofInterrupt i, ⟨σ.left, (checkProgram s.nextId (first ++ "\n" ++ second)).nextId⟩) := by
      refine perform_interrupted hresult ?_
      rw [Run.interpret_append, hrun]
    refine ⟨⟨program, more, distances, distances', hcheck, ?_, hresult⟩, ?_, ?_⟩
    · rw [ran]
      exact hcheck'
    · rw [ran, ran', hi.eq]
      refine fun _ => ⟨rfl, ?_, ?_⟩
      · exact hreach.twins.sink.text.trans String.empty_append
      · exact twins_of_machines hreach.twins current hjadmits.fresh hadmits.fresh
    · rw [ran]
      cases i' <;> exact nofun

end

/-- Whatever a session has been asked for, if functions of the host do not see code, to run two sources
that pass their checks as one unit is to run one after the other. -/
theorem run_join (sink : Sink) (world : World) {requests : List Request}
    (hrequests : ∀ request ∈ requests, request.Blind) {first second : String}
    (hfirst : PassesAsProgram first) (hsecond : PassesAsProgram second) (fuel : Nat) :
    Joins fuel (requests.foldl Session.handle (.start (.start sink world))) first second :=
  joins_of_twins (after_twins (start_twins sink world) hrequests) hfirst hsecond fuel

/-- A variable is declared by the first source and called, which is a fault, by the second. -/
theorem run_join_declaration :
    PassesAsProgram "var a;" ∧ PassesAsProgram "a();" ∧
      Joins 9 (.start (.start (.start none) (.start []))) "var a;" "a();" := by
  have declaration : PassesAsProgram "var a;" := by
    unfold PassesAsProgram checkProgram check tokensOf lexicalIssuesOf
    rw [itemsOf_eq_itemsWithin]
    exact ⟨_, rfl⟩
  have call : PassesAsProgram "a();" := by
    unfold PassesAsProgram checkProgram check tokensOf lexicalIssuesOf
    rw [itemsOf_eq_itemsWithin]
    exact ⟨_, rfl⟩
  exact ⟨declaration, call, run_join _ _ (List.forall_mem_nil _) declaration call 9⟩

end Lox
