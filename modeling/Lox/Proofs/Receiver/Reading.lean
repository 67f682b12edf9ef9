import Lox.Proofs.Machine.Contained
import Lox.Proofs.Machine.Watched
import Lox.Proofs.Receiver.Attended

/-!
# `this` is the receiver in force

The resolver finds `this` in the innermost scope of a class. The frames of such scopes are those that
hold an object as their receiver, so its distance leads to the innermost of them, which is what
`Machine.InForce` speaks of without scopes.
-/

namespace Lox

open Layout

variable {setting : Setting} {σ : Layout}

/-- An occurrence with a distance gives what the frame there holds, in full. -/
theorem Run.lookUp_ok {m : Machine} {id : OccurrenceId} {name : Token} {d : Nat} {frame : FrameId}
    {value : Value} (hdistance : m.distances[id]? = some d)
    (hframe : m.frames.ancestor? d m.current = some frame)
    (hlocal : m.frames.local? frame name.lexeme = some value) :
    Run.lookUp id name m = .ok value.strong m := by
  have ancestor : Run.ancestor d m = .ok frame m := by
    rw [Run.ancestor, Run.get_bind, hframe]
    rfl
  rw [Run.lookUp, Run.get_bind, hdistance]
  show (Run.ancestor d >>= _) m = _
  rw [Run.bind_ok ancestor, Run.get_bind, hlocal]
  rfl

/-- What `this` gives is the receiver in force. -/
def ReadsReceiver (code : Code) (m : Machine) : Prop :=
  ∀ id keyword owner, code = .expression (.this id keyword) → m.InForce m.current owner →
    Run.lookUp id keyword m = .ok (.object owner) m

/-- The first scope that has the name of the receiver belongs to the frame that holds the receiver in
force. -/
theorem Layout.Runs.inForce (hgood : σ.Good setting) {frame : FrameId} {path : List Opener}
    {scopes : List Scope} (h : σ.Runs frame path scopes) {owner : ObjectId}
    (hforce : σ.machine.InForce frame owner) :
    ∃ d holder, scopes.findIdx? (·.contains receiverName) = some d ∧
      σ.machine.frames.ancestor? d frame = some holder ∧
      σ.machine.frames.local? holder receiverName = some (.object owner) := by
  induction h with
  | global =>
    cases hforce with
    | own hlocal =>
      obtain ⟨name, methods, hlabel⟩ := hgood.receivers _ _ hlocal rfl
      cases hgood.global.symm.trans hlabel
    | outer hinner => exact absurd rfl hinner
  | @scope frame next opener scope path scopes _ _ hlabel henclosing _ _ hclass hplain _ ih =>
    cases hforce with
    | own hlocal =>
      obtain ⟨name, methods, hreceiver⟩ := hgood.receivers _ _ hlocal rfl
      obtain rfl : opener = .receiver name methods := Option.some.inj (hlabel.symm.trans hreceiver)
      refine ⟨0, frame, ?_, rfl, hlocal⟩
      have first : scope.contains receiverName = true := by
        rw [hclass name methods rfl, Bindings.contains, Resolution.classScope,
          Bindings.find?_insert_self]
        rfl
      rw [List.findIdx?_cons, if_pos first]
    | outer _ hfree hnext hforce =>
      -- without a receiver, the frame is not the frame of a class
      have other : ¬scope.contains receiverName = true := by
        intro hcontains
        obtain ⟨name, methods, rfl⟩ := hplain hcontains
        obtain ⟨value, hvalue, hobject⟩ := hgood.held frame name methods hlabel
        rw [hfree value hvalue] at hobject
        cases hobject
      obtain rfl := Option.some.inj (henclosing.symm.trans hnext)
      obtain ⟨d, holder, hfind, hholder, hlocal⟩ := ih hforce
      refine ⟨d + 1, holder, ?_, ?_, hlocal⟩
      · rw [List.findIdx?_cons, if_neg other, hfind]
        rfl
      · rw [Frames.ancestor?, henclosing]
        exact hholder

/-- Where the scopes around it belong to the current frame, `this` gives the receiver in force. -/
theorem readsReceiver (setting : Setting) : Warranted setting fun _ => ReadsReceiver := by
  rintro σ path scopes _ hgood hruns hbound - _ - id keyword owner rfl hforce
  have ho := hbound ⟨.receiver, id, keyword⟩ rfl
  have named : keyword.lexeme = receiverName := ho.spelled.mp rfl
  obtain ⟨d, holder, hfind, hholder, hlocal⟩ := hruns.inForce hgood hforce
  have distance : σ.machine.distances[id]? = some d := by
    rw [hgood.distances id, ho.recorded, named]
    exact hfind
  exact Run.lookUp_ok distance hholder (named ▸ hlocal)

end Lox
