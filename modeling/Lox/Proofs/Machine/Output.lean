import Lox.Proofs.Machine.Contained

/-!
# The output of a run

Only `write` touches the output. Every other primitive is *silent*: whatever the output holds, and
whatever its limit is, it does the same (`Silent`). An output without a limit takes every text, and one
with a limit takes it until it is full.
-/

namespace Lox

variable {α β : Type}

/-! ## Writing -/

/-- The machine with a text behind all that it has printed. -/
def Machine.saying (m : Machine) (text : String) : Machine :=
  { m with sink := m.sink.append text }

theorem Machine.saying_empty (m : Machine) : m.saying "" = m := by
  have same : m.sink.append "" = m.sink := congrArg (Sink.mk _) String.append_empty
  rw [saying, same]

theorem Machine.saying_saying (m : Machine) (text text' : String) :
    (m.saying text).saying text' = m.saying (text ++ text') := by
  have both : (m.sink.append text).append text' = m.sink.append (text ++ text') :=
    congrArg (Sink.mk _) String.append_assoc
  rw [saying, saying, saying, ← both]

/-- The machine with another output. -/
def Machine.withSink (m : Machine) (sink : Sink) : Machine := { m with sink := sink }

/-- The machine with an output that takes so many ends of lines. -/
def Machine.limited (m : Machine) (n : Nat) : Machine := m.withSink { m.sink with limit := some n }

theorem Machine.limited_inside (m : Machine) (n : Nat) (frame : FrameId) :
    Machine.limited { m with current := frame } n = { m.limited n with current := frame } :=
  rfl

namespace Run

/-- An output without a limit takes every text, also an empty one. -/
theorem write_unlimited {m : Machine} (h : m.sink.limit = none) (text : String) :
    write text m = .ok () (m.saying text) := by
  have free : m.sink.isFull = false := by simp only [Sink.isFull, h]
  unfold write
  split
  · next hempty =>
    rw [String.isEmpty_iff.mp hempty, m.saying_empty]
    rfl
  · rw [get_bind, free]
    rfl

variable {m : Machine} {n : Nat} {text : String}

/-- A limited output refuses a text, unless it is empty, as soon as it holds enough ends of lines. -/
theorem write_limited_full (htext : text ≠ "") (hfull : n ≤ m.sink.text.toList.count '\n') :
    write text (m.limited n) = .error (.stopped Sink.refusal) (m.limited n) := by
  have full : (m.limited n).sink.isFull = true := decide_eq_true hfull
  have nonempty : text.isEmpty = false := by simpa using htext
  unfold write
  rw [nonempty]
  refine (get_bind _ _).trans ?_
  rw [full]
  rfl

theorem write_limited (h : text ≠ "" → m.sink.text.toList.count '\n' < n) :
    write text (m.limited n) = .ok () ((m.saying text).limited n) := by
  unfold write
  split
  · next hempty =>
    rw [String.isEmpty_iff.mp hempty, m.saying_empty]
    rfl
  · next hempty =>
    have free : (m.limited n).sink.isFull = false :=
      decide_eq_false (Nat.not_le.mpr (h (by simpa using hempty)))
    refine (get_bind _ _).trans ?_
    rw [free]
    rfl

/-! ## Silent runs -/

/-- The result with another machine. -/
def through (f : Machine → Machine) :
    EStateM.Result Interrupt Machine α → EStateM.Result Interrupt Machine α
  | .ok a m => .ok a (f m)
  | .error interrupt m => .error interrupt (f m)

theorem last_through (f : Machine → Machine) (result : EStateM.Result Interrupt Machine α) :
    last (through f result) = f (last result) := by
  cases result <;> rfl

end Run

/-- The run does the same whatever the output is, and it leaves the output alone. -/
structure Silent (p : Run α) : Prop where
  contained : Contained p
  blind : ∀ (m : Machine) (sink : Sink), p (m.withSink sink) = Run.through (·.withSink sink) (p m)

namespace Silent

/-- The output is what it was. -/
theorem sink {p : Run α} (h : Silent p) (m : Machine) : (Run.last (p m)).sink = m.sink := by
  have same := congrArg Run.last (h.blind m m.sink)
  rw [Run.last_through (·.withSink m.sink)] at same
  exact congrArg (fun m => m.sink) (show Run.last (p m) = _ from same)

theorem limited {p : Run α} (h : Silent p) (m : Machine) (n : Nat) :
    p (m.limited n) = Run.through (·.limited n) (p m) := by
  -- the limit is put on the output that was there before, which is the one that is left
  have same := h.sink m
  refine (h.blind m _).trans ?_
  cases hp : p m with
  | ok a m' | error interrupt m' =>
    rw [hp] at same
    rw [← show m'.sink = m.sink from same]
    rfl

/-! ### Putting runs together -/

protected theorem pure (a : α) : Silent (pure a : Run α) := ⟨.pure a, fun _ _ => rfl⟩

protected theorem throw {interrupt : Interrupt} (h : interrupt.IsDynamic) :
    Silent (throw interrupt : Run α) :=
  ⟨.throw h, fun _ _ => rfl⟩

protected theorem fault (line : Nat) (fault : Fault) : Silent (Run.fault line fault : Run α) :=
  .throw rfl

protected theorem bind {p : Run α} {f : α → Run β} (h : Silent p) (hf : ∀ a, Silent (f a)) :
    Silent (p >>= f) := by
  refine ⟨h.contained.bind fun a => (hf a).contained, fun m sink => ?_⟩
  have first := h.blind m sink
  cases hp : p m with
  | ok a m' =>
    rw [hp] at first
    rw [Run.bind_ok hp, Run.bind_ok first]
    exact (hf a).blind m' sink
  | error interrupt m' =>
    rw [hp] at first
    rw [Run.bind_error hp, Run.bind_error first]
    rfl

/-- A look at the machine, but not at its output. -/
protected theorem get {f : Machine → Run α} (hf : ∀ m, Silent (f m))
    (hblind : ∀ m sink, f (m.withSink sink) = f m) : Silent (get >>= f) := by
  refine ⟨.bind .get fun m => (hf m).contained, fun m sink => ?_⟩
  rw [Run.get_bind, Run.get_bind, hblind]
  exact (hf m).blind m sink

theorem inward : Inward Silent where
  pure := .pure
  fault := .fault
  strayed := .throw trivial
  bind := .bind
  get h hblind := .get h fun m sink => hblind m sink m.world
  freshIdentity := ⟨Contained.composing.freshIdentity, fun _ _ => rfl⟩
  newFrame _ _ := ⟨Contained.composing.newFrame .., fun _ _ => rfl⟩
  newObject _ := ⟨Contained.composing.newObject _, fun _ _ => rfl⟩
  setField _ _ _ := ⟨Contained.composing.setField .., fun _ _ => rfl⟩
  rebinding _ _ _ := ⟨Contained.composing.rebinding .., fun _ _ => rfl⟩

end Silent

namespace Run

/-- A function of the host sees objects and its arguments, and the world. -/
theorem callHost_silent (paren : Token) (f : HostFunction) (arguments : List Value) :
    Silent (callHost paren f arguments) := by
  refine ⟨callHost_contained paren f arguments, fun m sink => ?_⟩
  rw [callHost_eq, callHost_eq]
  rw [show (m.withSink sink).actions = m.actions from rfl]
  cases m.actions[f.index]? with
  | none => rfl
  | some action =>
    dsimp only [Machine.withSink]
    cases (action m.heap m.world arguments).1 <;> rfl

end Run

end Lox
