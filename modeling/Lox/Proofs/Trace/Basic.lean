import Lox.Proofs.Machine.Output
import Lox.Proofs.Machine.Scoping

/-!
# Traces

What happens in a run is more than what comes of it. A *traced* run comes with the moments at which
something happens: a piece of code is started, a text is written, a field is written, names are
declared (`Happening`), each with the machine as it is just before (`Moment`).

A trace accounts for the output (`Accounts`). Without a limit, the output is what the moments write, at
the end and at each moment. With a limit, the run goes the same way, moment for moment, up to the first
that writes to a full output, and there it stops. Traced runs are put together like runs, and so is the
account of their traces.
-/

namespace Lox

variable {α β : Type}

/-! ## Moments -/

/-- What can happen in a run. -/
inductive Happening where
  /-- A piece of code is evaluated or carried out. -/
  | starts (code : Code)
  /-- A text is written to the output, if that takes it. -/
  | writes (text : String)
  /-- A field of an object is written. -/
  | sets (id : ObjectId) (name : String) (value : Value)
  /-- Names are bound by a declaration, or as the parameters of a function that is called. -/
  | declares (names : List String)

/-- The text that is written. -/
def Happening.text : Happening → String
  | .writes text => text
  | _ => ""

/-- Something that happens, and the machine just before. -/
structure Moment where
  machine : Machine
  happening : Happening

namespace Moment

/-- An output that takes so many ends of lines is full, and something is written to it all the same. -/
def Refused (n : Nat) (moment : Moment) : Prop :=
  moment.happening.text ≠ "" ∧ n ≤ moment.machine.sink.text.toList.count '\n'

/-- The moment with an output that takes so many ends of lines. -/
def limited (n : Nat) (moment : Moment) : Moment :=
  { moment with machine := moment.machine.limited n }

end Moment

/-- All that the moments write. -/
def written (trace : List Moment) : String := String.join (trace.map (·.happening.text))

@[simp] theorem written_nil : written [] = "" := rfl

@[simp] theorem written_append (trace trace' : List Moment) :
    written (trace ++ trace') = written trace ++ written trace' := by
  simp [written]

@[simp] theorem written_cons (moment : Moment) (trace : List Moment) :
    written (moment :: trace) = moment.happening.text ++ written trace := by
  simp [written]

theorem written_eq_empty {trace : List Moment} (h : ∀ moment ∈ trace, moment.happening.text = "") :
    written trace = "" := by
  induction trace with
  | nil => rfl
  | cons moment trace ih =>
    obtain ⟨hmoment, htrace⟩ := List.forall_mem_cons.mp h
    rw [written_cons, hmoment, ih htrace, String.append_empty]

/-! ## The account of a trace -/

/-- The run writes what its trace writes, and a limited output cuts it at the first moment at which it
is full and something is written to it. -/
structure Accounts (run : Run α) (trace : Machine → List Moment) : Prop where
  contained : Contained run
  output : ∀ m : Machine, m.sink.limit = none →
    (Run.last (run m)).sink = m.sink.append (written (trace m))
  outputAt : ∀ m : Machine, m.sink.limit = none → ∀ before moment after,
    trace m = before ++ moment :: after → moment.machine.sink = m.sink.append (written before)
  whole : ∀ (m : Machine) (n : Nat), m.sink.limit = none → (∀ moment ∈ trace m, ¬moment.Refused n) →
    run (m.limited n) = Run.through (·.limited n) (run m) ∧
      trace (m.limited n) = (trace m).map (·.limited n)
  cut : ∀ (m : Machine) (n : Nat), m.sink.limit = none → ∀ before moment after,
    trace m = before ++ moment :: after → (∀ earlier ∈ before, ¬earlier.Refused n) →
      moment.Refused n →
    run (m.limited n) = .error (.stopped Sink.refusal)
        (Machine.limited { moment.machine with current := m.current } n) ∧
      trace (m.limited n) = (before ++ [moment]).map (·.limited n)

namespace Accounts

/-- A silent run at whose start something happens, or nothing, but no text is written. -/
theorem silent {run : Run α} (h : Silent run) (whats : List Happening)
    (hwhats : ∀ what ∈ whats, what.text = "") : Accounts run fun m => whats.map (Moment.mk m) := by
  have quiet (m : Machine) : ∀ moment ∈ whats.map (Moment.mk m), moment.happening.text = "" :=
    List.forall_mem_map.mpr hwhats
  refine ⟨h.contained, fun m _ => ?_, fun m _ before moment after hsplit => ?_, fun m n _ _ => ?_,
    fun m n _ before moment after hsplit _ hrefused => ?_⟩
  · rw [h.sink m, written_eq_empty (quiet m)]
    exact (congrArg Machine.sink m.saying_empty).symm
  · have hall := quiet m
    rw [hsplit, List.forall_mem_append] at hall
    have hmoment : moment ∈ whats.map (Moment.mk m) := by simp [hsplit]
    obtain ⟨what, -, rfl⟩ := List.mem_map.mp hmoment
    rw [written_eq_empty hall.1]
    exact (congrArg Machine.sink m.saying_empty).symm
  · refine ⟨h.limited m n, ?_⟩
    rw [List.map_map]
    rfl
  · exact absurd (quiet m moment (by simp [hsplit])) hrefused.1

/-- A text is written. -/
theorem write (text : String) : Accounts (Run.write text) fun m => [⟨m, .writes text⟩] := by
  refine ⟨Run.write_contained text, fun m hfree => ?_, fun m _ before moment after hsplit => ?_,
    fun m n hfree haccepted => ?_, fun m n hfree before moment after hsplit _ hrefused => ?_⟩
  · rw [Run.write_unlimited hfree, written_cons, written_nil, String.append_empty]
    rfl
  · obtain ⟨rfl, rfl, rfl⟩ : before = [] ∧ ⟨m, .writes text⟩ = moment ∧ after = [] := by
      cases before <;> simp_all
    exact (congrArg Machine.sink m.saying_empty).symm
  · have free : text ≠ "" → m.sink.text.toList.count '\n' < n := by
      intro htext
      exact Nat.lt_of_not_le fun hfull => haccepted _ List.mem_cons_self ⟨htext, hfull⟩
    rw [Run.write_limited free, Run.write_unlimited hfree]
    exact ⟨rfl, rfl⟩
  · obtain ⟨rfl, rfl, rfl⟩ : before = [] ∧ ⟨m, .writes text⟩ = moment ∧ after = [] := by
      cases before <;> simp_all
    exact ⟨Run.write_limited_full hrefused.1 hrefused.2, rfl⟩

/-- What stands behind the first part of a trace stands in the second. -/
theorem split_append {γ : Type} {l l' before after : List γ} {x : γ}
    (h : l ++ l' = before ++ x :: after) :
    (∃ rest, l = before ++ x :: rest) ∨ ∃ between, before = l ++ between ∧ l' = between ++ x :: after := by
  rcases List.append_eq_append_iff.mp h with ⟨between, hbefore, hrest⟩ | ⟨between, hl, hrest⟩
  · exact .inr ⟨between, hbefore, hrest⟩
  · cases between with
    | nil => exact .inr ⟨[], by simpa using hl.symm, hrest.symm⟩
    | cons y between =>
      injection hrest with hx _
      exact .inl ⟨between, hx ▸ hl⟩

theorem append_written (sink : Sink) (trace trace' : List Moment) :
    (sink.append (written trace)).append (written trace') = sink.append (written (trace ++ trace')) := by
  rw [written_append]
  exact congrArg (Sink.mk _) String.append_assoc

/-- The moments of a run, and those of what runs behind it. -/
def follow (run : Run α) (first : Machine → List Moment) (next : α → Machine → List Moment)
    (m : Machine) : List Moment :=
  first m ++
    match run m with
    | .ok a m' => next a m'
    | .error _ _ => []

section

variable {p : Run α} {f : α → Run β} {first : Machine → List Moment}
variable {next : α → Machine → List Moment} {m m' : Machine} {a : α}

theorem follow_ok (h : p m = .ok a m') : follow p first next m = first m ++ next a m' := by
  simp only [follow, h]

theorem follow_error {interrupt : Interrupt} (h : p m = .error interrupt m') :
    follow p first next m = first m := by
  simp only [follow, h, List.append_nil]

/-- One run behind another. -/
theorem bind (h : Accounts p first) (hf : ∀ a, Accounts (f a) (next a)) :
    Accounts (p >>= f) (follow p first next) where
  contained := h.contained.bind fun a => (hf a).contained
  output m hfree := by
    have out := h.output m hfree
    cases hp : p m with
    | ok a m' =>
      rw [hp] at out
      have hfree' : m'.sink.limit = none := (congrArg Sink.limit out).trans hfree
      rw [Run.bind_ok hp, follow_ok hp, (hf a).output m' hfree', ← append_written]
      exact congrArg (Sink.append · _) out
    | error interrupt m' =>
      rw [hp] at out
      rw [Run.bind_error hp, follow_error hp]
      exact out
  outputAt m hfree before moment after hsplit := by
    have out := h.output m hfree
    -- a moment of the second run comes behind all that the first one writes
    cases hp : p m with
    | ok a m' =>
      rw [hp] at out
      have hfree' : m'.sink.limit = none := (congrArg Sink.limit out).trans hfree
      rw [follow_ok hp] at hsplit
      rcases split_append hsplit with ⟨rest, hfirst⟩ | ⟨between, rfl, hnext⟩
      · exact h.outputAt m hfree before moment rest hfirst
      · rw [(hf a).outputAt m' hfree' between moment after hnext, ← append_written]
        exact congrArg (Sink.append · _) out
    | error interrupt m' =>
      rw [follow_error hp] at hsplit
      exact h.outputAt m hfree before moment after hsplit
  whole m n hfree haccepted := by
    have limit := (h.contained.spared m).limit
    cases hp : p m with
    | ok a m' =>
      rw [hp] at limit
      rw [follow_ok hp, List.forall_mem_append] at haccepted
      obtain ⟨hrun, htrace⟩ := h.whole m n hfree haccepted.1
      obtain ⟨hrun', htrace'⟩ := (hf a).whole m' n (limit.trans hfree) haccepted.2
      rw [hp] at hrun
      rw [Run.bind_ok hp, Run.bind_ok hrun, follow_ok hp, follow_ok hrun, List.map_append, htrace]
      exact ⟨hrun', congrArg _ htrace'⟩
    | error interrupt m' =>
      rw [follow_error hp] at haccepted
      obtain ⟨hrun, htrace⟩ := h.whole m n hfree haccepted
      rw [hp] at hrun
      rw [Run.bind_error hp, Run.bind_error hrun, follow_error hp, follow_error hrun]
      exact ⟨rfl, htrace⟩
  cut m n hfree before moment after hsplit haccepted hrefused := by
    -- a refusal in the first run keeps the second one from being started
    have stopped : ∀ rest, first m = before ++ moment :: rest →
        (p >>= f) (m.limited n) = .error (.stopped Sink.refusal)
            (Machine.limited { moment.machine with current := m.current } n) ∧
          follow p first next (m.limited n) = (before ++ [moment]).map (·.limited n) := by
      intro rest hfirst
      obtain ⟨hrun, htrace⟩ := h.cut m n hfree before moment rest hfirst haccepted hrefused
      rw [Run.bind_error hrun, follow_error hrun]
      exact ⟨rfl, htrace⟩
    cases hp : p m with
    | ok a m' =>
      have spared := h.contained.spared m
      rw [hp] at spared
      rw [follow_ok hp] at hsplit
      rcases split_append hsplit with ⟨rest, hfirst⟩ | ⟨between, rfl, hnext⟩
      · exact stopped rest hfirst
      · rw [List.forall_mem_append] at haccepted
        obtain ⟨hrun, htrace⟩ := h.whole m n hfree haccepted.1
        obtain ⟨hrun', htrace'⟩ := (hf a).cut m' n (spared.limit.trans hfree) between moment after
          hnext haccepted.2 hrefused
        rw [hp] at hrun
        rw [Run.bind_ok hrun, follow_ok hrun, hrun', htrace, htrace',
          show m'.current = m.current from spared.current]
        exact ⟨rfl, by simp⟩
    | error interrupt m' =>
      rw [follow_error hp] at hsplit
      exact stopped after hsplit

/-- A run in another frame. -/
theorem inFrame (frame : FrameId) (h : Accounts p first) :
    Accounts (Run.inFrame frame p) fun m => first { m with current := frame } where
  contained := h.contained.inFrame frame
  output m hfree := by
    have out := h.output { m with current := frame } hfree
    unfold Run.inFrame
    cases hp : p { m with current := frame } with
    | ok a m' | error interrupt m' =>
      rw [hp] at out
      exact out
  outputAt m := h.outputAt { m with current := frame }
  whole m n hfree haccepted := by
    obtain ⟨hrun, htrace⟩ := h.whole { m with current := frame } n hfree haccepted
    refine ⟨?_, htrace⟩
    rw [Machine.limited_inside] at hrun
    unfold Run.inFrame
    rw [hrun]
    cases p { m with current := frame } <;> rfl
  cut m n hfree before moment after hsplit haccepted hrefused := by
    obtain ⟨hrun, htrace⟩ :=
      h.cut { m with current := frame } n hfree before moment after hsplit haccepted hrefused
    refine ⟨?_, htrace⟩
    rw [Machine.limited_inside] at hrun
    unfold Run.inFrame
    rw [hrun]
    rfl

end

end Accounts

/-! ## Traced runs -/

/-- A run with the moments at which something happens in it. -/
structure Traced (α : Type) where
  run : Run α
  trace : Machine → List Moment
  accounts : Accounts run trace

namespace Traced

instance : Monad Traced where
  pure a := ⟨pure a, fun _ => [], .silent (.pure a) [] nofun⟩
  bind x f := ⟨x.run >>= fun a => (f a).run, Accounts.follow x.run x.trace fun a => (f a).trace,
    .bind x.accounts fun a => (f a).accounts⟩

/-- A silent run in which nothing happens. -/
def silent (run : Run α) (h : Silent run) : Traced α := ⟨run, fun _ => [], .silent h [] nofun⟩

/-- A silent run at whose start something happens. -/
def noted (what : Happening) (run : Run α) (hwhat : what.text = "") (h : Silent run) :
    Traced α :=
  ⟨run, fun m => [⟨m, what⟩], .silent h [what] (List.forall_mem_singleton.mpr hwhat)⟩

/-- Writes a text to the output. -/
def write (text : String) : Traced Unit := ⟨Run.write text, fun m => [⟨m, .writes text⟩], .write text⟩

/-- Runs something with another frame as the current one. -/
def inFrame (frame : FrameId) (t : Traced α) : Traced α :=
  ⟨Run.inFrame frame t.run, fun m => t.trace { m with current := frame }, t.accounts.inFrame frame⟩

/-- Starts a piece of code. -/
def starting (code : Code) (t : Traced α) : Traced α := do
  noted (.starts code) (pure ()) rfl (.pure ())
  t

end Traced

end Lox
