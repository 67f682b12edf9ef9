import Lox.Proofs.Host.Strategy
import Lox.Proofs.Trace.Evaluation

/-!
# Runs look at the input through `readLine` only

On a machine with the functions of the host that are always there, a run is a strategy: it asks `readLine`
for lines, and whatever the input is, it comes to the end to which the strategy comes and leaves what the
strategy leaves (`Interacts`). Most of what a run is made of does not see the input at all; then the rules
put together what their parts do, however deep.
-/

namespace Lox

variable {α β : Type}

/-! ## Machines with an input -/

namespace Machine

/-- The machine with another input. -/
def withInput (m : Machine) (input : List UInt8) : Machine :=
  { m with world := { m.world with input := input } }

/-- The functions of the host are those that are always there. -/
def IsStandard (m : Machine) : Prop := m.actions = #[HostOffer.clock.action, HostOffer.readLine.action]

theorem isStandard_start (sink : Sink) (world : World) : (Machine.start sink world).IsStandard := rfl

end Machine

/-- How a run ends, with the machine on which it does. -/
abbrev Ending (α : Type) := EStateM.Result Interrupt Machine α

/-- The ending with another input. -/
def Ending.withInput (ending : Ending α) (input : List UInt8) : Ending α :=
  Run.through (·.withInput input) ending

/-- A run in another frame ends as the run does there, but for the frame that is current. -/
theorem Run.inFrame_eq (frame : FrameId) (p : Run α) (m : Machine) :
    inFrame frame p m =
      through (fun m' => { m' with current := m.current }) (p { m with current := frame }) := by
  unfold inFrame
  cases p { m with current := frame } <;> rfl

/-! ## Interacting runs -/

/-- Whatever the input is, what the run does with it is what the strategy does, and the functions of the
host are left alone. -/
def Strategy.Explains (s : Strategy (Ending α)) (p : Run α) (m : Machine) : Prop :=
  ∀ input, (Run.last (s.play input).1).IsStandard ∧
    p (m.withInput input) = (s.play input).1.withInput (s.play input).2

/-- What comes of a run is changed in a way that does not see the input. -/
theorem Strategy.Explains.map {s : Strategy (Ending α)} {p : Run α} {q : Run β} {m m' : Machine}
    (h : s.Explains p m) (change : Ending α → Ending β)
    (hblind : ∀ ending input, change (Ending.withInput ending input) =
      Ending.withInput (change ending) input)
    (hstandard : ∀ ending, (Run.last ending).IsStandard → (Run.last (change ending)).IsStandard)
    (hrun : ∀ input, q (m'.withInput input) = change (p (m.withInput input))) :
    (s.bind fun ending => .ends (change ending)).Explains q m' := by
  intro input
  obtain ⟨hended, hends⟩ := h input
  rw [Strategy.play_bind, hrun, hends, hblind]
  exact ⟨hstandard _ hended, rfl⟩

/-- The run is a strategy on each machine. -/
def Interacts (p : Run α) : Prop :=
  ∀ m : Machine, m.IsStandard → ∃ s : Strategy (Ending α), s.Explains p m

namespace Interacts

/-! ### Putting runs together -/

/-- A run that does not see the input. -/
theorem blind {p : Run α} (hblind : ∀ m input, p (m.withInput input) = Ending.withInput (p m) input)
    (hstandard : ∀ m : Machine, m.IsStandard → (Run.last (p m)).IsStandard) : Interacts p :=
  fun m hm => ⟨.ends (p m), fun input => ⟨hstandard m hm, hblind m input⟩⟩

protected theorem pure (a : α) : Interacts (pure a : Run α) := blind (fun _ _ => rfl) fun _ hm => hm

protected theorem throw (interrupt : Interrupt) : Interacts (throw interrupt : Run α) :=
  blind (fun _ _ => rfl) fun _ hm => hm

/-- A look at the machine, but not at its input. -/
protected theorem get {f : Machine → Run α} (hf : ∀ m, Interacts (f m))
    (hblind : ∀ m input, f (m.withInput input) = f m) : Interacts (get >>= f) := by
  intro m hm
  obtain ⟨s, hs⟩ := hf m m hm
  refine ⟨s, fun input => ?_⟩
  rw [Run.get_bind, hblind]
  exact hs input

protected theorem bind {p : Run α} {f : α → Run β} (h : Interacts p) (hf : ∀ a, Interacts (f a)) :
    Interacts (p >>= f) := by
  intro m hm
  obtain ⟨s, hs⟩ := h m hm
  -- behind an end that the first run cannot come to, it does not matter how the strategy goes on
  have next : ∀ ending : Ending α, ∃ t : Strategy (Ending β),
      match ending with
      | .ok a m' => m'.IsStandard → t.Explains (f a) m'
      | .error interrupt m' => t = .ends (.error interrupt m') := by
    intro ending
    cases ending with
    | ok a m' =>
      by_cases hm' : m'.IsStandard
      · obtain ⟨t, ht⟩ := hf a m' hm'
        exact ⟨t, fun _ => ht⟩
      · exact ⟨.ends (.error .exhausted m'), fun hstandard => absurd hstandard hm'⟩
    | error interrupt m' => exact ⟨_, rfl⟩
  choose t ht using next
  refine ⟨s.bind t, fun input => ?_⟩
  have first := hs input
  rw [Strategy.play_bind]
  generalize s.play input = played at first ⊢
  obtain ⟨ending, rest⟩ := played
  obtain ⟨hstandard, hrun⟩ := first
  have later := ht ending
  cases ending with
  | ok a m' =>
    obtain ⟨hstandard', hrun'⟩ := later hstandard rest
    exact ⟨hstandard', (Run.bind_ok hrun f).trans hrun'⟩
  | error interrupt m' =>
    dsimp only at later ⊢
    rw [later]
    exact ⟨hstandard, Run.bind_error hrun f⟩

/-- A run in another frame. -/
protected theorem inFrame (frame : FrameId) {p : Run α} (h : Interacts p) :
    Interacts (Run.inFrame frame p) := by
  intro m hm
  obtain ⟨s, hs⟩ := h { m with current := frame } hm
  let back (m' : Machine) : Machine := { m' with current := m.current }
  refine ⟨_, hs.map (Run.through back) ?_ ?_ fun input => Run.inFrame_eq frame p _⟩
  · exact fun ending _ => by cases ending <;> rfl
  · exact fun ending h => by cases ending <;> exact h

/-- A run after which the global frame is current, if it stops. -/
protected theorem grounded {p : Run α} (h : Interacts p) : Interacts p.grounded := by
  intro m hm
  obtain ⟨s, hs⟩ := h m hm
  let ground : Ending α → Ending α
    | .ok a m' => .ok a m'
    | .error interrupt m' => .error interrupt { m' with current := Frames.globalId }
  refine ⟨_, hs.map ground ?_ ?_ fun input => rfl⟩
  · exact fun ending _ => by cases ending <;> rfl
  · exact fun ending h => by cases ending <;> exact h

end Interacts

/-! ## The output and the host -/

theorem Run.write_interacts (text : String) : Interacts (write text) := by
  unfold write
  split
  · exact .pure ()
  · refine .get (fun m => ?_) fun _ _ => rfl
    have append : Interacts (modify fun m => { m with sink := m.sink.append text } : Run Unit) :=
      .blind (fun _ _ => rfl) fun _ hm => hm
    split
    · exact .bind (.throw _) fun _ => append
    · exact append

/-- How a call of a function of the host goes on from its answer. -/
def Machine.answered (m : Machine) (paren : Token) : Except String Value → Ending Value
  | .ok value => .ok value m
  | .error message => .error (.stopped (.runtime paren.line (.host message))) m

/-- The answer does not depend on what is left. -/
theorem Machine.answered_explained (m : Machine) (paren : Token) (answer : Except String Value)
    (rest : List UInt8) : Run.last (m.answered paren answer) = m ∧
      (m.withInput rest).answered paren answer = Ending.withInput (m.answered paren answer) rest := by
  cases answer <;> exact ⟨rfl, rfl⟩

theorem Run.callHost_action {f : HostFunction} {m : Machine} {action : HostAction}
    (h : m.actions[f.index]? = some action) (paren : Token) (arguments : List Value) :
    callHost paren f arguments m =
      Machine.answered { m with world := (action m.heap m.world arguments).2 } paren
        (action m.heap m.world arguments).1 := by
  rw [callHost_eq, h]
  dsimp only
  cases (action m.heap m.world arguments).1 <;> rfl

/-- `readLine` asks for a line, and does nothing else. -/
theorem readLine_eq (heap : Heap) (world : World) (arguments : List Value) :
    HostOffer.readLine.action heap world arguments =
      ((ask world.input).1, { world with input := (ask world.input).2 }) := by
  obtain ⟨input, clock⟩ := world
  cases htake : takeLine input with
  | none =>
    obtain rfl := takeLine_eq_none.mp htake
    rfl
  | some first =>
    obtain ⟨line, rest⟩ := first
    simp only [HostOffer.readLine, htake, ask_line htake]
    rfl

/-- A function of the host reads the clock, which does not show in the input, or it asks for a line. -/
theorem Run.callHost_interacts (paren : Token) (f : HostFunction) (arguments : List Value) :
    Interacts (callHost paren f arguments) := by
  intro m hm
  have actions (input : List UInt8) : (m.withInput input).actions[f.index]? =
      #[HostOffer.clock.action, HostOffer.readLine.action][f.index]? :=
    congrArg (·[f.index]?) hm
  -- functions of the host are known by their index
  match hindex : f.index with
  | 0 =>
    have reads (input : List UInt8) : (m.withInput input).actions[f.index]? =
        some HostOffer.clock.action :=
      (actions input).trans (by rw [hindex]; rfl)
    refine ⟨.ends (callHost paren f arguments m), fun input => ?_⟩
    rw [callHost_action (reads input), Strategy.play,
      callHost_action (show m.actions[f.index]? = _ from reads m.world.input)]
    exact ⟨hm, rfl⟩
  | 1 =>
    refine ⟨.asks fun answer => .ends (m.answered paren answer), fun input => ?_⟩
    have asks : (m.withInput input).actions[f.index]? = some HostOffer.readLine.action :=
      (actions input).trans (by rw [hindex]; rfl)
    obtain ⟨hlast, hleft⟩ := m.answered_explained paren (ask input).1 (ask input).2
    rw [callHost_action asks, readLine_eq, Strategy.play, Strategy.play, hlast]
    exact ⟨hm, hleft⟩
  | n + 2 =>
    refine ⟨.ends (.ok .nil m), fun input => ⟨hm, ?_⟩⟩
    rw [callHost_eq, actions, hindex]
    rfl

/-! ## However deep -/

theorem Interacts.composing : Composing Interacts where
  pure := .pure
  fault _ _ := .throw _
  strayed := .throw _
  exhausted := .throw _
  bind := .bind
  get h hblind := .get h fun m input => hblind m m.sink { m.world with input := input }
  freshIdentity := .blind (fun _ _ => rfl) fun _ hm => hm
  newFrame _ _ := .blind (fun _ _ => rfl) fun _ hm => hm
  newObject _ := .blind (fun _ _ => rfl) fun _ hm => hm
  setField _ _ _ := .blind (fun _ _ => rfl) fun _ hm => hm
  rebinding _ _ _ := .blind (fun _ _ => rfl) fun _ hm => hm
  inFrame frame h := .inFrame frame h
  write := Run.write_interacts
  callHost := Run.callHost_interacts

/-- Programs interact with their input. -/
theorem Run.interpret_interacts (fuel : Nat) (program : List Stmt) : Interacts (interpret fuel program) := by
  -- where a program stops, the frame is set back once, behind all of its statements
  rw [← Traced.executeProgram_run]
  refine .grounded ?_
  induction program with
  | nil => exact .pure ()
  | cons first more ih =>
    show Interacts ((Traced.execute fuel first).run >>= fun _ => (Traced.executeProgram fuel more).run)
    rw [Traced.execute_run]
    exact .bind (Interacts.composing.execute fuel first) fun _ => ih

end Lox
