import Lox.CommandLine
import Lox.Proofs.Host.Interacting
import Lox.Proofs.Session.Following

/-!
# Dialogues

At the prompt, a session runs line after line as a unit of its own, and each unit may take the lines behind
its own by `readLine`. What goes on between two prompts is an `Exchange`, and what goes on in all is a
`Conversation`. However the units come to ask for lines, the exchanges share out the input between them
line by line (`Conversation.linesIn_eq`), and the same units do the same if they are run directly, with the
lines for `readLine` alone for an input (`Conversation.feed_eq`).
-/

namespace Lox

/-! ## Units as strategies -/

section

variable {α β : Type} {session : Session} {checked : Checked α} {tree : α} {distances : Distances}

/-- How a unit ends, and the session behind it. -/
def Ending.settled (nextId : OccurrenceId) : Ending α → Outcome α × Session
  | .ok value m => (.done value, ⟨m, nextId⟩)
  | .error interrupt m => (.ofInterrupt interrupt, ⟨m, nextId⟩)

theorem perform_settled (h : checked.result = .ok (tree, distances)) (action : α → Run β) :
    session.perform checked action =
      Ending.settled checked.nextId (action tree (session.idle.adopt distances)) := by
  cases hrun : action tree (session.idle.adopt distances) with
  | ok value m => exact perform_done h hrun
  | error interrupt m => exact perform_interrupted h hrun

end

namespace Session

/-- Whatever the input is, what comes of the unit and of the session is what the strategy comes to. -/
def Plays (session : Session) (fuel : Nat) (source : String) (s : Strategy (Outcome Unit × Session)) :
    Prop :=
  ∀ input, (session.withInput input).run fuel source =
    ((s.play input).1.1, (s.play input).1.2.withInput (s.play input).2)

/-- What the strategy leaves is the input of the session behind the unit. -/
theorem Plays.left_eq {session after : Session} {fuel : Nat} {source : String}
    {s : Strategy (Outcome Unit × Session)} {rest : List UInt8} {outcome : Outcome Unit}
    (h : session.Plays fuel source s) (hrun : (session.withInput rest).run fuel source = (outcome, after)) :
    (s.play rest).2 = after.machine.world.input :=
  congrArg (fun ended => ended.2.machine.world.input) ((h rest).symm.trans hrun)

/-- A unit is a strategy, if the functions of the host are those that are always there. -/
theorem exists_plays {session : Session} (h : session.machine.IsStandard) (fuel : Nat) (source : String) :
    ∃ s, session.Plays fuel source s ∧ ∀ input, (s.play input).1.2.machine.IsStandard := by
  let nextId := (checkProgram session.nextId source).nextId
  cases hresult : (checkProgram session.nextId source).result with
  | error diagnostics =>
    exact ⟨.ends (.failed (.rejected diagnostics), ⟨session.idle, nextId⟩),
      fun input => perform_rejected hresult _, fun _ => h⟩
  | ok unit =>
    obtain ⟨program, distances⟩ := unit
    obtain ⟨s, hs⟩ := Run.interpret_interacts fuel program (session.idle.adopt distances) h
    refine ⟨s.bind fun ending => .ends (ending.settled nextId), fun input => ?_, fun input => ?_⟩
    · have hrun := (hs input).2
      have settled : (session.withInput input).run fuel source =
          Ending.settled nextId (Run.interpret fuel program
            ((session.idle.adopt distances).withInput input)) := perform_settled hresult _
      rw [settled, hrun, Strategy.play_bind, Strategy.play]
      cases (s.play input).1 <;> rfl
    · have hstandard := (hs input).1
      rw [Strategy.play_bind, Strategy.play]
      cases hending : (s.play input).1 with
      | ok value m | error interrupt m =>
        rw [hending] at hstandard
        exact hstandard

/-- How units end that are run one behind the other, and what each of them prints. -/
def feed (fuel : Nat) : Session → List String → List (Outcome Unit × String)
  | _, [] => []
  | session, source :: more =>
    let (outcome, after) := session.run fuel source
    (outcome, after.printed) :: feed fuel after more

theorem feed_cons {fuel : Nat} {session after : Session} {source : String} {outcome : Outcome Unit}
    (h : session.run fuel source = (outcome, after)) (more : List String) :
    session.feed fuel (source :: more) = (outcome, after.printed) :: after.feed fuel more := by
  rw [feed, h]

end Session

/-! ## Conversations -/

/-- What goes on between two prompts: a line is run as a unit, which may call `readLine`, ends in some way
and has printed something by then. -/
structure Exchange where
  line : List UInt8
  source : String
  calls : List Asked
  outcome : Outcome Unit
  printed : String

namespace Exchange

/-- The lines that calls of `readLine` take. -/
def taken (x : Exchange) : List (List UInt8) := x.calls.filterMap (·.line?)

/-- The lines of an exchange: the one that is run, and those that are taken while it runs. -/
def lines (x : Exchange) : List (List UInt8) := x.line :: x.taken

/-- What an exchange comes to: the lines that it uses up, how its unit ends, and what that prints. -/
def upshot (x : Exchange) : List (List UInt8) × Outcome Unit × String := (x.lines, x.outcome, x.printed)

end Exchange

/-- The session runs line after line as a unit of its own, until there is no line left. The calls of
`readLine` are those of a strategy that the unit plays whatever the input behind it is. -/
inductive Conversation (fuel : Nat) : Session → List Exchange → Prop
  | ended {session : Session} : takeLine session.machine.world.input = none → Conversation fuel session []
  | unit {session after : Session} {line rest : List UInt8} {source : String}
      {s : Strategy (Outcome Unit × Session)} {outcome : Outcome Unit} {more : List Exchange} :
      takeLine session.machine.world.input = some (line, rest) →
      Utf8.decode line = .ok source →
      (session.withInput rest).run fuel source = (outcome, after) →
      session.Plays fuel source s →
      Conversation fuel after more →
      Conversation fuel session (⟨line, source, s.asked rest, outcome, after.printed⟩ :: more)

namespace Conversation

variable {fuel : Nat} {session : Session} {exchanges : List Exchange}

/-- A session whose input is text has a conversation. -/
theorem exists_of_isText (hstandard : session.machine.IsStandard)
    (htext : Utf8.IsText session.machine.world.input) :
    ∃ exchanges, Conversation fuel session exchanges := by
  induction hlength : session.machine.world.input.length using Nat.strong_induction_on
    generalizing session with
  | h length ih =>
    cases htake : takeLine session.machine.world.input with
    | none => exact ⟨[], .ended htake⟩
    | some first =>
      obtain ⟨line, rest⟩ := first
      obtain ⟨hline, hrest⟩ := htext.takeLine htake
      obtain ⟨source, hsource⟩ := Utf8.decode_isText.mpr hline
      obtain ⟨s, hplays, hafter⟩ := session.exists_plays hstandard fuel source
      -- the line is gone, whatever the unit takes behind it
      have shorter : (s.play rest).2.length < length :=
        hlength ▸ Nat.lt_of_le_of_lt (s.length_play_le rest) (length_lt_of_takeLine htake)
      have later : ∃ more, Conversation fuel ((s.play rest).1.2.withInput (s.play rest).2) more :=
        ih _ shorter (hafter rest) (s.isText_play hrest) rfl
      obtain ⟨more, hmore⟩ := later
      exact ⟨_, .unit htake hsource (hplays rest) hplays hmore⟩

/-- What a conversation comes to is not up to the strategies that are found for its units. -/
theorem map_upshot_eq {exchanges' : List Exchange} (h : Conversation fuel session exchanges)
    (h' : Conversation fuel session exchanges') :
    exchanges.map Exchange.upshot = exchanges'.map Exchange.upshot := by
  induction h generalizing exchanges' with
  | ended htake =>
    cases h' with
    | ended => rfl
    | unit htake' => cases htake.symm.trans htake'
  | @unit session after line rest source s outcome more htake hsource hrun hplays hmore ih =>
    cases h' with
    | ended htake' => cases htake.symm.trans htake'
    | @unit _ after' line' rest' source' s' outcome' more' htake' hsource' hrun' hplays' hmore' =>
      cases htake.symm.trans htake'
      cases hsource.symm.trans hsource'
      cases hrun.symm.trans hrun'
      have taken := s.taken_eq s' ((hplays.left_eq hrun).trans (hplays'.left_eq hrun).symm)
      rw [List.map_cons, List.map_cons, ih hmore']
      exact congrArg (fun taken => (line :: taken, outcome, after.printed) :: _) taken

/-- The lines of the input are those of the exchanges, in their order. -/
theorem linesIn_eq (h : Conversation fuel session exchanges) :
    linesIn session.machine.world.input = exchanges.flatMap Exchange.lines := by
  induction h with
  | ended htake =>
    rw [takeLine_eq_none.mp htake]
    rfl
  | @unit session after line rest source s outcome more htake hsource hrun hplays hmore ih =>
    cases (hplays rest).symm.trans hrun
    rw [linesIn_of_takeLine htake, s.linesIn_play rest, List.flatMap_cons, ← ih]
    rfl

theorem proper (h : Conversation fuel session exchanges)
    (htext : Utf8.IsText session.machine.world.input) :
    ∀ x ∈ exchanges, ∀ call ∈ x.calls, call.IsProper := by
  induction h with
  | ended => exact List.forall_mem_nil _
  | @unit session after line rest source s outcome more htake hsource hrun hplays hmore ih =>
    obtain ⟨-, hrest⟩ := htext.takeLine htake
    cases (hplays rest).symm.trans hrun
    exact List.forall_mem_cons.mpr ⟨s.asked_proper hrest, ih (s.isText_play hrest)⟩

/-- The same units do the same if they are run directly. -/
theorem feed_eq (h : Conversation fuel session exchanges) :
    (session.withInput (exchanges.flatMap Exchange.taken).flatten).feed fuel (exchanges.map (·.source)) =
      exchanges.map fun x => (x.outcome, x.printed) := by
  induction h with
  | ended => rfl
  | @unit session after line rest source s outcome more htake hsource hrun hplays hmore ih =>
    cases (hplays rest).symm.trans hrun
    -- only a unit that leaves nothing may have seen the end of the input, and then it is the last one
    have last : (s.play rest).2 = [] → (more.flatMap Exchange.taken).flatten = [] := by
      intro hleft
      cases hmore with
      | ended => rfl
      | unit htake' => cases (takeLine_eq_none.mpr hleft).symm.trans htake'
    have ahead := hplays ((s.taken rest).flatten ++ (more.flatMap Exchange.taken).flatten)
    rw [s.play_ahead last] at ahead
    rw [List.flatMap_cons, List.flatten_append, List.map_cons, List.map_cons, ← ih]
    exact Session.feed_cons ahead _

/-- No unit strays. -/
theorem ne_strayed (h : Conversation fuel session exchanges) {units : List Code} {labels : Labels}
    (hsound : History.Sound ⟨session, units⟩ labels) : ∀ x ∈ exchanges, x.outcome ≠ .strayed := by
  induction h generalizing units labels with
  | ended => exact List.forall_mem_nil _
  | @unit session after line rest source s outcome more htake hsource hrun hplays hmore ih =>
    obtain ⟨_, hread, -⟩ := @handle_sound _ _ hsound (.input rest) trivial
    obtain ⟨labels', hran, -, hfollows⟩ := @handle_sound _ _ hread (.run fuel source) trivial
    have stays : ((session.withInput rest).run fuel source).1 ≠ .strayed :=
      (hfollows labels' fun _ _ => rfl).2
    have after_eq : ((session.withInput rest).run fuel source).2 = after := congrArg Prod.snd hrun
    rw [hrun] at stays
    rw [History.handle, History.handle, Session.handle, Session.handle, after_eq] at hran
    exact List.forall_mem_cons.mpr ⟨stays, ih hran⟩

/-- Each exchange takes a byte of the input at least. -/
theorem length_le (h : Conversation fuel session exchanges) :
    exchanges.length ≤ session.machine.world.input.length := by
  induction h with
  | ended => exact Nat.zero_le _
  | @unit session after line rest source s outcome more htake hsource hrun hplays hmore ih =>
    cases (hplays rest).symm.trans hrun
    exact Nat.lt_of_le_of_lt (ih.trans (s.length_play_le rest)) (length_lt_of_takeLine htake)

end Conversation

end Lox
