import Lox.Proofs.Machine.Contained
import Lox.Proofs.Receiver.Sealed

/-!
# What lasts through a run

Names are bound by declarations and by assignments. Everything else that a run is made of adds a frame or
an object, writes a field, or leaves frames and objects alone. A relation between machines that lasts
through each of these changes (`Lasting`) lasts through all that is made of them (`Keeping`).
-/

namespace Lox

variable {α β : Type}

/-- The relation holds between the machines before and behind each change that binds no name. -/
class Lasting (R : Machine → Machine → Prop) : Prop where
  same : ∀ {m m'}, m'.frames = m.frames → m'.heap = m.heap → R m m'
  trans : ∀ {m m' m''}, R m m' → R m' m'' → R m m''
  push : ∀ m bindings enclosing, R m (m.push bindings enclosing)
  create : ∀ m cls, R m (m.create cls)
  setField : ∀ m id name value, R m (m.setField id name value)

theorem Lasting.refl {R : Machine → Machine → Prop} [Lasting R] (m : Machine) : R m m := Lasting.same rfl rfl

/-- Whatever comes of the run, the machines before and behind it are related. -/
structure Keeping (R : Machine → Machine → Prop) (p : Run α) : Prop where
  keeps : ∀ m, R m (Run.last (p m))

variable {R : Machine → Machine → Prop}

namespace Keeping

/-! ## Putting runs together -/

protected theorem modify {f : Machine → Machine} (h : ∀ m, R m (f m)) : Keeping R (modify f : Run Unit) :=
  ⟨h⟩

protected theorem get {f : Machine → Run α} (hf : ∀ m, Keeping R (f m)) : Keeping R (get >>= f) :=
  ⟨fun m => (hf m).keeps m⟩

variable [Lasting R]

protected theorem pure (a : α) : Keeping R (pure a : Run α) := ⟨Lasting.refl⟩

protected theorem throw (interrupt : Interrupt) : Keeping R (throw interrupt : Run α) := ⟨Lasting.refl⟩

protected theorem fault (line : Nat) (fault : Fault) : Keeping R (Run.fault line fault : Run α) :=
  ⟨Lasting.refl⟩

protected theorem bind {p : Run α} {f : α → Run β} (h : Keeping R p) (hf : ∀ a, Keeping R (f a)) :
    Keeping R (p >>= f) := by
  refine ⟨fun m => ?_⟩
  have first := h.keeps m
  cases hp : p m with
  | ok a m' =>
    rw [hp] at first
    rw [Run.bind_ok hp]
    exact Lasting.trans first ((hf a).keeps m')
  | error interrupt m' =>
    rw [hp] at first
    rw [Run.bind_error hp]
    exact first

theorem inert : Inert fun p => Keeping R p where
  pure := .pure
  fault := .fault
  strayed := .throw _
  bind := .bind
  get h _ := .get h
  freshIdentity := ⟨fun _ => Lasting.same rfl rfl⟩
  newFrame bindings enclosing := ⟨fun m => Lasting.push m bindings enclosing⟩
  newObject cls := ⟨fun m => Lasting.create m cls⟩
  setField id name value := .modify fun m => Lasting.setField m id name value

end Keeping

namespace Run

variable [Lasting R]

theorem write_keeping (text : String) : Keeping R (write text) := by
  unfold write
  split
  · exact .pure ()
  · refine .get fun m => ?_
    have append : Keeping R (modify fun m => { m with sink := m.sink.append text } : Run Unit) :=
      .modify fun _ => Lasting.same rfl rfl
    split
    · exact .bind (.throw _) fun _ => append
    · exact append

/-- The host sees the objects and the world, but no frame. -/
theorem callHost_keeping (paren : Token) (f : HostFunction) (arguments : List Value) :
    Keeping R (callHost paren f arguments) := by
  refine ⟨fun m => ?_⟩
  rw [callHost_eq]
  split
  · exact Lasting.refl m
  · split <;> exact Lasting.same rfl rfl

end Run

end Lox
