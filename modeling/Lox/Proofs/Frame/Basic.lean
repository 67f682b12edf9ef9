import Lox.Frame

/-!
# Frames that are added and frames that are there

A frame that is added is enclosed by the one it was added to, and nothing else changes. What encloses a
frame stays when names are bound, and with it stay the ancestors. To the outside of the global frame there
is nothing, so a name is found there or not at all.
-/

namespace Lox.Frames

variable {α : Type} (frames : Frames α)

@[simp] theorem nextId_define (id : FrameId) (name : String) (a : α) :
    (frames.define id name a).nextId = frames.nextId := by
  simp [define, nextId]

@[simp] theorem nextId_push (bindings : Bindings α) (enclosing : Option FrameId) :
    (frames.push bindings enclosing).nextId = frames.nextId + 1 := by
  simp [push, nextId]

theorem lt_nextId_push (bindings : Bindings α) (enclosing : Option FrameId) :
    frames.nextId < (frames.push bindings enclosing).nextId := by
  simp

theorem enclosing?_push (bindings : Bindings α) (enclosing : Option FrameId) (id : FrameId) :
    (frames.push bindings enclosing).enclosing? id =
      if id = frames.nextId then enclosing else frames.enclosing? id := by
  rw [enclosing?, frame?_push]
  split <;> rfl

theorem local?_push (bindings : Bindings α) (enclosing : Option FrameId) (id : FrameId)
    (name : String) :
    (frames.push bindings enclosing).local? id name =
      if id = frames.nextId then bindings.find? name else frames.local? id name := by
  rw [local?, frame?_push]
  split <;> rfl

/-! ## The start -/

/-- Nothing is bound at the start. -/
theorem local?_start (id : FrameId) (name : String) : (start : Frames α).local? id name = none := by
  rw [local?, frame?, start]
  cases id <;> rfl

/-- No frame is inside another one at the start. -/
theorem enclosing?_start (id : FrameId) : (start : Frames α).enclosing? id = none := by
  rw [enclosing?, frame?, start]
  cases id <;> rfl

/-! ## Frames that are there -/

theorem isSome_frame? (id : FrameId) : (frames.frame? id).isSome ↔ id < frames.nextId := by
  simp [frame?, nextId]

/-- There is nothing in a frame that is still to come. -/
theorem lt_nextId_of_local? {id : FrameId} {name : String} (h : (frames.local? id name).isSome) :
    id < frames.nextId := by
  rw [← isSome_frame?]
  cases hframe : frames.frame? id with
  | none =>
    rw [local?, hframe] at h
    cases h
  | some frame => rfl

theorem lt_nextId_of_enclosing? {id outer : FrameId} (h : frames.enclosing? id = some outer) :
    id < frames.nextId := by
  rw [← isSome_frame?]
  cases hframe : frames.frame? id with
  | none =>
    rw [enclosing?, hframe] at h
    cases h
  | some frame => rfl

/-! ## Ancestors -/

/-- The same frames around each frame are the same ancestors. -/
theorem ancestor?_congr {frames frames' : Frames α}
    (h : ∀ id, frames'.enclosing? id = frames.enclosing? id) (d : Nat) (id : FrameId) :
    frames'.ancestor? d id = frames.ancestor? d id := by
  induction d generalizing id with
  | zero => rfl
  | succ d ih =>
    rw [ancestor?, ancestor?, h]
    cases frames.enclosing? id with
    | none => rfl
    | some outer => exact ih outer

/-- Steps outwards add up. -/
theorem ancestor?_add (d d' : Nat) (id : FrameId) :
    frames.ancestor? (d + d') id = (frames.ancestor? d id).bind (frames.ancestor? d') := by
  induction d generalizing id with
  | zero => rw [Nat.zero_add]; rfl
  | succ d ih =>
    rw [Nat.succ_add, ancestor?, ancestor?, Option.bind_assoc]
    cases frames.enclosing? id with
    | none => rfl
    | some outer => exact ih outer

/-! ## The global frame -/

/-- By name, the global frame is the only one around itself. -/
theorem holder?_globalId (name : String) :
    frames.holder? globalId name =
      if (frames.local? globalId name).isSome then some globalId else none := by
  rw [holder?, holderWithin]
  split
  · rfl
  · split <;> rfl

theorem find?_globalId (name : String) :
    frames.find? globalId name = frames.local? globalId name := by
  rw [find?, holder?_globalId]
  cases h : frames.local? globalId name with
  | none => rfl
  | some a => simp [h]

end Lox.Frames
