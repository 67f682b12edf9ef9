import Lox.Proofs.Machine.Composing

/-!
# What no run changes

Whatever comes of a run, the frame that was current is current again, the distances of the occurrences
are what they were, and the output has the limit that it had. And a run is interrupted only by what can
go wrong while it runs, never by a static diagnostic. Such a run is `Contained`. All that runs are made
of is contained, and so are they, however deep (`Contained.composing`).

Bodies of blocks and functions are the point of it. They run in frames of their own, and can end in the
middle of others: at a `return`, at a fault, or because the host failed.
-/

namespace Lox

variable {α β : Type}

/-! ## Contained runs -/

namespace Run

/-- The machine on which a run ends, whatever comes of it. -/
def last : EStateM.Result Interrupt Machine α → Machine
  | .ok _ m => m
  | .error _ m => m

section

variable {p : Run α} {m m' : Machine}

theorem bind_ok {a : α} (h : p m = .ok a m') (f : α → Run β) : (p >>= f) m = f a m' := by
  show EStateM.bind p f m = _
  rw [EStateM.bind, h]

theorem get_bind (f : Machine → Run β) (m : Machine) : (get >>= f) m = f m m := rfl

theorem bind_error {interrupt : Interrupt} (h : p m = .error interrupt m') (f : α → Run β) :
    (p >>= f) m = .error interrupt m' := by
  show EStateM.bind p f m = _
  rw [EStateM.bind, h]

end

end Run

/-- The two machines agree in what no run changes. -/
structure Machine.Spared (m m' : Machine) : Prop where
  current : m'.current = m.current
  distances : m'.distances = m.distances
  limit : m'.sink.limit = m.sink.limit

theorem Machine.Spared.refl (m : Machine) : m.Spared m := ⟨rfl, rfl, rfl⟩

theorem Machine.Spared.trans {m m' m'' : Machine} (h : m.Spared m') (h' : m'.Spared m'') :
    m.Spared m'' :=
  ⟨h'.current.trans h.current, h'.distances.trans h.distances, h'.limit.trans h.limit⟩

/-- The program, the host or a bound is at fault, and nothing that shows before a run. -/
def Interrupt.IsDynamic : Interrupt → Prop
  | .stopped diagnostic => diagnostic.isStatic = false
  | .strayed | .exhausted => True

/-- Whatever comes of the run, it leaves alone what no run changes. -/
structure Contained (p : Run α) : Prop where
  spared : ∀ m : Machine, m.Spared (Run.last (p m))
  dynamic : ∀ {m m' : Machine} {interrupt : Interrupt}, p m = .error interrupt m' →
    interrupt.IsDynamic

namespace Contained

/-! ### Putting runs together -/

/-- A run that always comes to its end. -/
theorem of_ok {p : Run α} {a : Machine → α} {m' : Machine → Machine}
    (hrun : ∀ m, p m = .ok (a m) (m' m)) (h : ∀ m : Machine, m.Spared (m' m)) : Contained p where
  spared m := by
    rw [hrun]
    exact h m
  dynamic hinterrupted := by
    rw [hrun] at hinterrupted
    nomatch hinterrupted

protected theorem pure (a : α) : Contained (pure a : Run α) := .of_ok (fun _ => rfl) .refl

protected theorem get : Contained (get : Run Machine) := .of_ok (fun _ => rfl) .refl

protected theorem modify {f : Machine → Machine} (h : ∀ m : Machine, m.Spared (f m)) :
    Contained (modify f : Run Unit) :=
  .of_ok (fun _ => rfl) h

protected theorem throw {interrupt : Interrupt} (h : interrupt.IsDynamic) :
    Contained (throw interrupt : Run α) where
  spared m := .refl m
  dynamic hinterrupted := by
    injection hinterrupted with hinterrupted
    exact hinterrupted ▸ h

protected theorem fault (line : Nat) (fault : Fault) : Contained (Run.fault line fault : Run α) :=
  .throw rfl

protected theorem bind {p : Run α} {f : α → Run β} (h : Contained p) (hf : ∀ a, Contained (f a)) :
    Contained (p >>= f) := by
  refine ⟨fun m => ?_, fun {m m' interrupt} hinterrupted => ?_⟩
  · have first := h.spared m
    cases hp : p m with
    | ok a m' =>
      rw [hp] at first
      rw [Run.bind_ok hp]
      exact first.trans ((hf a).spared m')
    | error interrupt m' =>
      rw [hp] at first
      rw [Run.bind_error hp]
      exact first
  · cases hp : p m with
    | ok a m' =>
      rw [Run.bind_ok hp] at hinterrupted
      exact (hf a).dynamic hinterrupted
    | error interrupt m' =>
      rw [Run.bind_error hp] at hinterrupted
      injection hinterrupted with hinterrupted
      exact hinterrupted ▸ h.dynamic hp

/-- What runs in another frame comes back. -/
protected theorem inFrame (frame : FrameId) {p : Run α} (h : Contained p) :
    Contained (Run.inFrame frame p) := by
  refine ⟨fun m => ?_, fun {m m' interrupt} hinterrupted => ?_⟩
  · have inside := h.spared { m with current := frame }
    -- the frame is set back on both ways out, whichever one is current inside by then
    unfold Run.inFrame
    cases hp : p { m with current := frame } with
    | ok a m' | error interrupt m' =>
      rw [hp] at inside
      exact ⟨rfl, inside.distances, inside.limit⟩
  · unfold Run.inFrame at hinterrupted
    cases hp : p { m with current := frame } with
    | ok a m' =>
      rw [hp] at hinterrupted
      nomatch hinterrupted
    | error interrupt m' =>
      rw [hp] at hinterrupted
      injection hinterrupted with hinterrupted
      exact hinterrupted ▸ h.dynamic hp

end Contained

namespace Run

/-! ## The output and the host -/

/-- Output that is refused is no static diagnostic either. -/
theorem write_contained (text : String) : Contained (write text) := by
  unfold write
  split
  · exact .pure ()
  · refine .bind .get fun m => ?_
    have append : Contained (modify fun m => { m with sink := m.sink.append text } : Run Unit) :=
      .modify fun _ => ⟨rfl, rfl, rfl⟩
    split
    · exact .bind (.throw rfl) fun _ => append
    · exact append

/-- What a function of the host does to the machine: it changes the world and nothing else. -/
theorem callHost_eq (paren : Token) (f : HostFunction) (arguments : List Value) (m : Machine) :
    callHost paren f arguments m =
      match m.actions[f.index]? with
      | none => .ok .nil m
      | some action =>
        let m' := { m with world := (action m.heap m.world arguments).2 }
        match (action m.heap m.world arguments).1 with
        | .ok value => .ok value m'
        | .error message => .error (.stopped (.runtime paren.line (.host message))) m' := by
  rw [callHost, get_bind]
  cases m.actions[f.index]? with
  | none => rfl
  | some action =>
    dsimp only
    cases (action m.heap m.world arguments).1 <;> rfl

/-- The failure of a function of the host is a fault of the program. -/
theorem callHost_contained (paren : Token) (f : HostFunction) (arguments : List Value) :
    Contained (callHost paren f arguments) := by
  refine ⟨fun m => ?_, fun {m m' interrupt} hinterrupted => ?_⟩
  · rw [callHost_eq]
    split
    · exact .refl m
    · split <;> exact ⟨rfl, rfl, rfl⟩
  · rw [callHost_eq] at hinterrupted
    split at hinterrupted
    · nomatch hinterrupted
    · split at hinterrupted
      · nomatch hinterrupted
      · injection hinterrupted with hinterrupted
        exact hinterrupted ▸ rfl

end Run

/-! ## However deep -/

theorem Contained.composing : Composing Contained where
  pure := .pure
  fault := .fault
  strayed := .throw trivial
  exhausted := .throw trivial
  bind := .bind
  get h _ := .bind .get h
  freshIdentity := .of_ok (fun _ => rfl) fun _ => ⟨rfl, rfl, rfl⟩
  newFrame _ _ := .of_ok (fun _ => rfl) fun _ => ⟨rfl, rfl, rfl⟩
  newObject _ := .of_ok (fun _ => rfl) fun _ => ⟨rfl, rfl, rfl⟩
  setField _ _ _ := .modify fun _ => ⟨rfl, rfl, rfl⟩
  rebinding _ _ _ := .modify fun _ => ⟨rfl, rfl, rfl⟩
  inFrame frame h := .inFrame frame h
  write := Run.write_contained
  callHost := Run.callHost_contained

namespace Run

/-- Expressions are evaluated in a contained way. -/
theorem evaluate_contained (fuel : Nat) (e : Expr) : Contained (evaluate fuel e) :=
  Contained.composing.evaluate fuel e

/-- Statements are carried out in a contained way. -/
theorem execute_contained (fuel : Nat) (t : Stmt) : Contained (execute fuel t) :=
  Contained.composing.execute fuel t

/-- Programs run in the global frame, and where one stops, that frame is made current again. -/
theorem interpret_spared (fuel : Nat) (program : List Stmt) {m : Machine}
    (hglobal : m.current = Frames.globalId) : m.Spared (last (interpret fuel program m)) := by
  induction program generalizing m with
  | nil => exact .refl m
  | cons first more ih =>
    have spared := (execute_contained fuel first).spared m
    unfold interpret
    cases hfirst : execute fuel first m with
    | ok completion m' =>
      rw [hfirst] at spared
      exact spared.trans (ih (spared.current.trans hglobal))
    | error interrupt m' =>
      rw [hfirst] at spared
      exact ⟨hglobal.symm, spared.distances, spared.limit⟩

/-- What stops a program is what stops one of its statements. -/
theorem interpret_dynamic {fuel : Nat} {program : List Stmt} {m m' : Machine}
    {interrupt : Interrupt} (hinterrupted : interpret fuel program m = .error interrupt m') :
    interrupt.IsDynamic := by
  induction program generalizing m with
  | nil => nomatch hinterrupted
  | cons first more ih =>
    unfold interpret at hinterrupted
    cases hfirst : execute fuel first m with
    | ok completion m' =>
      rw [hfirst] at hinterrupted
      exact ih hinterrupted
    | error interrupt m' =>
      rw [hfirst] at hinterrupted
      injection hinterrupted with hinterrupted
      exact hinterrupted ▸ (execute_contained fuel first).dynamic hfirst

end Run

end Lox
