import Lox.Proofs.Frame.Addressing

/-!
# Frames with a root

Frames are *rooted* if each is inside of an older one, the global frame alone apart (`Frames.Rooted`). Then
every way outwards *leads home*: it ends in the global frame (`Frames.LeadsHome`), and so does each search
by name along it, within as many steps as the frame is deep (`Frames.WayHome`).

To bind a name keeps frames rooted, and so does a new frame inside of one that is there.
-/

namespace Lox.Frames

variable {α : Type} {frames : Frames α}

/-- Each frame is inside of an older one, but for the global frame. -/
structure Rooted (frames : Frames α) : Prop where
  outward : frames.Outward
  root : ∀ id < frames.nextId, frames.enclosing? id = none → id = globalId

/-- The way outwards from a frame ends in the global frame. There are as many ancestors as it is long, and
to look for a name takes no more steps than that. -/
structure WayHome (frames : Frames α) (id : FrameId) (n : Nat) : Prop where
  depth : frames.HasDepth id n
  home : frames.ancestor? n id = some globalId
  ancestors : ∀ d, (frames.ancestor? d id).isSome ↔ d ≤ n
  search : ∀ name bound, n < bound → frames.holderWithin name bound id = frames.holder? id name

/-- There is a way from the frame to the global one. -/
def LeadsHome (frames : Frames α) (id : FrameId) : Prop := ∃ n, frames.WayHome id n

/-! ## What keeps frames rooted -/

theorem rooted_start : (start : Frames α).Rooted where
  outward id _ houter := nomatch (enclosing?_start id).symm.trans houter
  root _ hid _ := Nat.lt_one_iff.mp hid

theorem Rooted.define (h : frames.Rooted) (id : FrameId) (name : String) (a : α) :
    (frames.define id name a).Rooted where
  outward := h.outward.define id name a
  root other hother hnone := by
    rw [nextId_define] at hother
    rw [enclosing?_define] at hnone
    exact h.root other hother hnone

theorem Rooted.push (h : frames.Rooted) (bindings : Bindings α) {enclosing : Option FrameId}
    (henclosing : ∃ outer < frames.nextId, enclosing = some outer) :
    (frames.push bindings enclosing).Rooted := by
  obtain ⟨outer, hlt, rfl⟩ := henclosing
  refine ⟨h.outward.push bindings fun _ hsame => Option.some.inj hsame ▸ hlt, fun id hid hnone => ?_⟩
  rw [nextId_push] at hid
  rw [enclosing?_push] at hnone
  split at hnone
  · cases hnone
  · next hold => exact h.root id (Nat.lt_of_le_of_ne (Nat.le_of_lt_succ hid) hold) hnone

/-- A frame other than the global one is inside of one that is there. -/
theorem Rooted.enclosing (h : frames.Rooted) {id : FrameId} (hid : id < frames.nextId)
    (hlocal : id ≠ globalId) : ∃ outer < frames.nextId, frames.enclosing? id = some outer := by
  cases houter : frames.enclosing? id with
  | none => exact absurd (h.root id hid houter) hlocal
  | some outer => exact ⟨outer, Nat.lt_trans (h.outward houter) hid, rfl⟩

/-! ## The way outwards -/

/-- A search by name is over when there is no further frame. -/
theorem HasDepth.holderWithin_eq {id : FrameId} {n : Nat} (h : frames.HasDepth id n) (name : String)
    {bound bound' : Nat} (hbound : n < bound) (hbound' : n < bound') :
    frames.holderWithin name bound id = frames.holderWithin name bound' id := by
  induction h generalizing bound bound' with
  | root henclosing =>
    obtain ⟨bound, rfl⟩ := Nat.exists_eq_add_of_lt hbound
    obtain ⟨bound', rfl⟩ := Nat.exists_eq_add_of_lt hbound'
    rw [holderWithin, holderWithin, henclosing]
  | inside henclosing _ ih =>
    obtain ⟨bound, rfl⟩ := Nat.exists_eq_add_of_lt hbound
    obtain ⟨bound', rfl⟩ := Nat.exists_eq_add_of_lt hbound'
    rw [holderWithin, holderWithin, henclosing]
    split
    · rfl
    · exact ih (by omega) (by omega)

/-- The way is not longer than the number of the frame. -/
theorem Outward.depth_le (h : frames.Outward) {id : FrameId} {n : Nat} (hdepth : frames.HasDepth id n) :
    n ≤ id := by
  induction hdepth with
  | root => exact Nat.zero_le _
  | inside henclosing _ ih => exact Nat.lt_of_le_of_lt ih (h henclosing)

section

variable {frames' : Frames α}

/-- Frames that are added do not come in between. -/
theorem Outward.hasDepth_later (h : frames.Outward)
    (hsame : ∀ id < frames.nextId, frames'.enclosing? id = frames.enclosing? id) {id : FrameId}
    (hid : id < frames.nextId) {n : Nat} (hdepth : frames.HasDepth id n) : frames'.HasDepth id n := by
  induction hdepth with
  | root henclosing => exact .root ((hsame _ hid).trans henclosing)
  | inside henclosing _ ih =>
    exact .inside ((hsame _ hid).trans henclosing) (ih (Nat.lt_trans (h henclosing) hid))

/-- The last one on the way outwards is the global frame. -/
theorem Rooted.ancestor?_later (h : frames.Rooted)
    (hsame : ∀ id < frames.nextId, frames'.enclosing? id = frames.enclosing? id) {id : FrameId}
    (hid : id < frames.nextId) {n : Nat} (hdepth : frames.HasDepth id n) :
    frames'.ancestor? n id = some globalId := by
  induction hdepth with
  | root henclosing => rw [ancestor?, h.root _ hid henclosing]
  | inside henclosing _ ih =>
    rw [ancestor?, hsame _ hid, henclosing, Option.bind_some]
    exact ih (Nat.lt_trans (h.outward henclosing) hid)

/-- From each frame the way outwards leads to the global one, then and whenever frames have been added. -/
theorem Rooted.leadsHome_later (h : frames.Rooted)
    (hsame : ∀ id < frames.nextId, frames'.enclosing? id = frames.enclosing? id) {id : FrameId}
    (hid : id < frames.nextId) : frames'.LeadsHome id := by
  obtain ⟨n, hdepth⟩ := h.outward.exists_depth id
  have later := h.outward.hasDepth_later hsame hid hdepth
  refine ⟨n, later, h.ancestor?_later hsame hid hdepth, later.isSome_ancestor?, fun name _ hbound => ?_⟩
  exact later.holderWithin_eq name hbound (Nat.lt_succ_of_le (h.outward.depth_le hdepth))

end

theorem Rooted.leadsHome (h : frames.Rooted) {id : FrameId} (hid : id < frames.nextId) :
    frames.LeadsHome id :=
  h.leadsHome_later (fun _ _ => rfl) hid

end Lox.Frames
