import Lox.Bindings

/-!
# Frames

A running scope is a frame: the names bound in it, and the frame that encloses it. Frames are shared.
Every function that is made in a frame keeps it, several frames can be enclosed by one, and what is
bound through one of them is seen through all. So frames are numbered, and `Frames` holds them all.

A name is looked up in two ways. By name, `holder?` goes from a frame outwards to the first one that
holds the name. By distance, `ancestor?` goes outwards a fixed number of frames.

A new frame is enclosed by an older one, so the numbers go down along the way outwards, and the number
of a frame bounds the length of the way.
-/

namespace Lox

/-- The number of a frame. -/
abbrev FrameId := Nat

/-- A running scope. -/
structure Frame (α : Type) where
  bindings : Bindings α
  enclosing : Option FrameId

instance {α : Type} : Inhabited (Frame α) := ⟨⟨.empty, none⟩⟩

/-- All frames there are. -/
structure Frames (α : Type) where
  all : Array (Frame α)

namespace Frames

variable {α : Type}

/-- The number of the global frame. -/
def globalId : FrameId := 0

/-- The global frame alone, with nothing bound in it. -/
def start : Frames α := ⟨#[⟨.empty, none⟩]⟩

/-- The frame with a number. -/
def frame? (frames : Frames α) (id : FrameId) : Option (Frame α) := frames.all[id]?

/-- The number of the next frame. -/
def nextId (frames : Frames α) : FrameId := frames.all.size

/-- Adds a frame; its number is `nextId`. -/
def push (frames : Frames α) (bindings : Bindings α) (enclosing : Option FrameId) : Frames α :=
  ⟨frames.all.push ⟨bindings, enclosing⟩⟩

/-- The frame that encloses a frame. -/
def enclosing? (frames : Frames α) (id : FrameId) : Option FrameId :=
  (frames.frame? id).bind (·.enclosing)

/-- What a name stands for in a frame itself. -/
def local? (frames : Frames α) (id : FrameId) (name : String) : Option α :=
  (frames.frame? id).bind (·.bindings.find? name)

/-- Binds a name in a frame itself. -/
def define (frames : Frames α) (id : FrameId) (name : String) (a : α) : Frames α :=
  ⟨frames.all.modify id fun frame => { frame with bindings := frame.bindings.insert name a }⟩

/-! ### What defining and pushing change -/

theorem frame?_define (frames : Frames α) (id other : FrameId) (name : String) (a : α) :
    (frames.define id name a).frame? other =
      if id = other then
        (frames.frame? other).map fun frame =>
          { frame with bindings := frame.bindings.insert name a }
      else frames.frame? other := by
  simp [define, frame?, Array.getElem?_modify]

theorem frame?_push (frames : Frames α) (bindings : Bindings α) (enclosing : Option FrameId)
    (id : FrameId) :
    (frames.push bindings enclosing).frame? id =
      if id = frames.nextId then some ⟨bindings, enclosing⟩ else frames.frame? id := by
  rw [frame?, push, Array.getElem?_push]
  rfl

/-- Defining a name changes no enclosing frame. -/
@[simp] theorem enclosing?_define (frames : Frames α) (id other : FrameId) (name : String) (a : α) :
    (frames.define id name a).enclosing? other = frames.enclosing? other := by
  rw [enclosing?, enclosing?, frame?_define]
  split
  · cases frames.frame? other <;> rfl
  · rfl

/-- Defining a name changes what it stands for in that frame, and nothing else. -/
theorem local?_define (frames : Frames α) (id other : FrameId) (name key : String) (a : α) :
    (frames.define id name a).local? other key =
      if id = other ∧ name = key ∧ (frames.frame? id).isSome then some a
      else frames.local? other key := by
  rw [local?, local?, frame?_define]
  by_cases hid : id = other
  · subst hid
    cases frames.frame? id with
    | none => simp
    | some frame => simp [Bindings.find?_insert]
  · simp [hid]

/-! ### By name -/

/-- The first frame that holds a name, among `id` and less than `bound` frames around it. -/
def holderWithin (frames : Frames α) (name : String) : Nat → FrameId → Option FrameId
  | 0, _ => none
  | bound + 1, id =>
    if (frames.local? id name).isSome then some id
    else match frames.enclosing? id with
      | none => none
      | some parent => holderWithin frames name bound parent

/-- The first frame from `id` outwards that holds a name. -/
def holder? (frames : Frames α) (id : FrameId) (name : String) : Option FrameId :=
  holderWithin frames name (id + 1) id

/-- What a name stands for in the first frame from `id` outwards that holds it. -/
def find? (frames : Frames α) (id : FrameId) (name : String) : Option α :=
  (frames.holder? id name).bind (frames.local? · name)

/-- Binds a name anew in the first frame from `id` outwards that holds it. -/
def assign? (frames : Frames α) (id : FrameId) (name : String) (a : α) : Option (Frames α) :=
  (frames.holder? id name).map (frames.define · name a)

/-! ### By distance -/

/-- The frame a number of steps outwards. -/
def ancestor? (frames : Frames α) : Nat → FrameId → Option FrameId
  | 0, id => some id
  | distance + 1, id => (frames.enclosing? id).bind (frames.ancestor? distance)

end Frames

end Lox
