import Lox.Proofs.Machine.Keeping

/-!
# What leaves frames alone

What is neither a declaration nor an assignment may add frames, but those that were there keep what encloses
them and what they hold (`Machine.Widens`). A call and a block open new frames, a method is bound by one,
and so is a copy of a method with another receiver.
-/

namespace Lox.Machine

/-- Frames are added, and the old ones hold what they held, inside of the frames that enclosed them. -/
structure Widens (m m' : Machine) : Prop where
  nextId_le : m.frames.nextId ≤ m'.frames.nextId
  enclosing_eq : ∀ frame < m.frames.nextId,
    m'.frames.enclosing? frame = m.frames.enclosing? frame
  local_eq : ∀ frame < m.frames.nextId, ∀ name,
    m'.frames.local? frame name = m.frames.local? frame name

variable {m m' m'' : Machine}

theorem Widens.of_frames_eq (h : m'.frames = m.frames) : m.Widens m' :=
  ⟨Nat.le_of_eq (by rw [h]), fun _ _ => by rw [h], fun _ _ _ => by rw [h]⟩

theorem Widens.refl (m : Machine) : m.Widens m := .of_frames_eq rfl

theorem Widens.trans (h : m.Widens m') (h' : m'.Widens m'') : m.Widens m'' where
  nextId_le := Nat.le_trans h.nextId_le h'.nextId_le
  enclosing_eq frame hframe :=
    (h'.enclosing_eq frame (Nat.lt_of_lt_of_le hframe h.nextId_le)).trans (h.enclosing_eq frame hframe)
  local_eq frame hframe name :=
    (h'.local_eq frame (Nat.lt_of_lt_of_le hframe h.nextId_le) name).trans
      (h.local_eq frame hframe name)

/-- A frame that is added is behind all others. -/
theorem Widens.push (m : Machine) (bindings : Bindings Value) (enclosing : Option FrameId) :
    m.Widens { m with frames := m.frames.push bindings enclosing } where
  nextId_le := by simp
  enclosing_eq frame hframe := by rw [Frames.enclosing?_push, if_neg (Nat.ne_of_lt hframe)]
  local_eq frame hframe name := by rw [Frames.local?_push, if_neg (Nat.ne_of_lt hframe)]

instance : Lasting Widens where
  same hframes _ := .of_frames_eq hframes
  trans := .trans
  push := .push
  create _ _ := .of_frames_eq rfl
  setField _ _ _ _ := .of_frames_eq rfl

end Lox.Machine
