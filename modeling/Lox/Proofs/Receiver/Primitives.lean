import Lox.Proofs.Receiver.Keeping

/-!
# The primitives keep receivers sealed

The lemmas on properties are the reason for all of this. A method that is stored in a field of its own
receiver gets a new frame that holds the receiver weakly, and the field is all that leads there. A read of
the field makes another new frame, which holds the receiver in full. Both frames are enclosed by the
environment of the method, so it stays bound as it was.
-/

namespace Lox

open Machine

variable {α : Type} {m m' : Machine}

/-! ## Variables -/

namespace Machine

/-- Frames around one that does not hold its receiver weakly do not either. -/
theorem Tidy.ancestor (h : m.Tidy) {d : Nat} {id frame : FrameId} (hlt : id < m.frames.nextId)
    (hfull : ¬m.HoldsWeakly id) (hframe : m.frames.ancestor? d id = some frame) :
    frame < m.frames.nextId ∧ ¬m.HoldsWeakly frame := by
  induction d generalizing id with
  | zero =>
    injection hframe with hframe
    exact hframe ▸ ⟨hlt, hfull⟩
  | succ d ih =>
    obtain ⟨outer, houter, hframe⟩ := Option.bind_eq_some_iff.mp hframe
    exact ih (h.enclosing_lt id outer houter) (h.isSealed.enclosing id outer houter) hframe

/-- What a frame holds that does not hold its receiver weakly is fine. -/
theorem Tidy.fine (h : m.Tidy) {frame : FrameId} (hfull : ¬m.HoldsWeakly frame) {name : String}
    {value : Value} (hvalue : m.frames.local? frame name = some value) : m.Fine value := by
  refine ⟨?_, h.bound frame name value hvalue⟩
  rcases h.isSealed.bound frame name value hvalue with hfine | ⟨rfl, id, rfl⟩
  · exact hfine
  · exact absurd ⟨id, hvalue⟩ hfull

end Machine

/-- What is found is given as it is. -/
theorem found_alone (h : m.Tidy) (name : Token) {value : Option Value}
    (hvalue : ∀ v, value = some v → m.Fine v) :
    Alone m (Run.found name value) fun m' v => m'.Fine v ∧ value = some v := by
  cases value with
  | none => exact .fault h ..
  | some v =>
    have fine := hvalue v rfl
    refine .pure h ?_
    rw [fine.full.strong]
    exact ⟨fine, rfl⟩

theorem ancestor_alone (h : m.Tidy) (d : Nat) :
    Alone m (Run.ancestor d) fun m' frame =>
      m' = m ∧ frame < m.frames.nextId ∧ ¬m.HoldsWeakly frame := by
  refine .get ?_
  split
  · next frame hframe =>
    exact .pure h ⟨rfl, h.ancestor h.current_lt h.isSealed.current hframe⟩
  · exact .throw h _

theorem lookUp_alone (h : m.Tidy) (id : OccurrenceId) (name : Token) :
    Alone m (Run.lookUp id name) Machine.Fine := by
  have fine {value : Option Value} (hvalue : ∀ v, value = some v → m.Fine v) :
      Alone m (Run.found name value) Machine.Fine :=
    (found_alone h name hvalue).mono fun _ _ _ hfound => hfound.1
  refine .get ?_
  split
  · refine (ancestor_alone h _).bind ?_
    rintro _ frame - ⟨rfl, -, hfull⟩
    exact .get (fine fun v hv => h.fine hfull hv)
  · refine .get (fine fun v hv => ?_)
    rw [Frames.find?_globalId] at hv
    exact h.fine h.isSealed.global hv

/-- A fine value may be bound to a name that can be declared. -/
theorem Machine.Tidy.define_reaches (h : m.Tidy) (frame : FrameId) {name : Token} (hname : name.IsFree)
    {value : Value} (hvalue : m.Fine value) : m.Reaches (m.define frame name.lexeme value) :=
  ⟨.define m frame (absurd · hname), h.define hvalue (absurd · hname), rfl⟩

theorem define_alone (h : m.Tidy) {name : Token} (hname : name.IsFree) {value : Value}
    (hvalue : m.Fine value) : Alone m (Run.define name.lexeme value) fun _ _ => True :=
  .of_ok rfl (h.define_reaches m.current hname hvalue) trivial

theorem redefine_alone (h : m.Tidy) (frame : FrameId) {name : Token} (hname : name.IsFree)
    {value : Value} (hvalue : m.Fine value) :
    Alone m (modify fun m => { m with frames := m.frames.define frame name.lexeme value } : Run Unit)
      fun _ _ => True :=
  .of_ok rfl (h.define_reaches frame hname hvalue) trivial

theorem assign_alone (h : m.Tidy) (id : OccurrenceId) {name : Token} (hname : name.IsFree)
    {value : Value} (hvalue : m.Fine value) :
    Alone m (Run.assign id name value) fun _ _ => True := by
  refine .get ?_
  split
  · refine (ancestor_alone h _).bind ?_
    rintro _ frame - ⟨rfl, -⟩
    exact redefine_alone h frame hname hvalue
  · refine .get ?_
    split
    · exact redefine_alone h _ hname hvalue
    · exact .fault h ..

/-! ## New frames and functions -/

theorem newFrame_alone (h : m.Tidy) (bindings : Bindings Value) (enclosing : Option FrameId)
    (hvalues : ∀ name value, bindings.find? name = some value →
      m.Fine value ∨ name = receiverName ∧ ∃ id < m.heap.nextId, value = .weakObject id)
    (henclosing : ∀ outer ∈ enclosing, outer < m.frames.nextId ∧ ¬m.HoldsWeakly outer) :
    Alone m (Run.newFrame bindings enclosing) fun m' frame =>
      m' = m.push bindings enclosing ∧ frame = m.frames.nextId :=
  .of_ok rfl ⟨.push m bindings enclosing, h.push hvalues henclosing, rfl⟩ ⟨rfl, rfl⟩

theorem freshIdentity_alone (h : m.Tidy) : Alone m Run.freshIdentity fun _ _ => True :=
  .of_same h rfl rfl rfl rfl rfl

theorem newFunction_alone (h : m.Tidy) (closure : Closure) (hfull : m.ClosureInFull closure)
    (hbound : closure.declaration.IsBound) : Alone m (Run.newFunction closure) Machine.Fine :=
  (freshIdentity_alone h).bind fun _ _ hreach _ =>
    .pure hreach.tidy ⟨hreach.earlier.closureInFull hfull, hbound, nofun⟩

/-! ## Receivers -/

namespace Machine

/-- The machine with a new frame that holds a receiver, and with a new identity for a function. -/
def rebound (m : Machine) (enclosing : Option FrameId) (receiver : Value) : Machine :=
  { m.push (Bindings.empty.insert receiverName receiver) enclosing with
    nextIdentity := m.nextIdentity + 1 }

/-- A copy of a function whose frame is the next one. -/
def copy (m : Machine) (closure : Closure) : Value :=
  .function ⟨m.nextIdentity, { closure with frame := m.frames.nextId }⟩

theorem fine_object {id : ObjectId} (hid : id < m.heap.nextId) : m.Fine (.object id) := by
  refine ⟨trivial, trivial, fun other hother => ?_⟩
  injection hother with hother
  exact hother ▸ hid

/-- A new frame for nothing but a receiver. -/
theorem Tidy.pushReceiver (h : m.Tidy) {enclosing : Option FrameId} (receiver : Value)
    {id : ObjectId} (hid : receiver.objectId? = some id) (hlt : id < m.heap.nextId)
    (henclosing : ∀ outer ∈ enclosing, outer < m.frames.nextId ∧ ¬m.HoldsWeakly outer) :
    (m.push (Bindings.empty.insert receiverName receiver) enclosing).Tidy := by
  apply h.push _ henclosing
  intro name value hvalue
  obtain rfl := find?_receiver receiver hvalue
  cases value with
  | object other =>
    injection hid with hid
    exact .inl (fine_object (hid ▸ hlt))
  | weakObject other =>
    injection hid with hid
    refine .inr ⟨?_, other, hid ▸ hlt, rfl⟩
    rw [Bindings.find?_insert] at hvalue
    split at hvalue
    · next hname => exact hname.symm
    · nomatch hvalue
  | _ => nomatch hid

theorem Tidy.rebound (h : m.Tidy) {enclosing : Option FrameId} (receiver : Value) {id : ObjectId}
    (hid : receiver.objectId? = some id) (hlt : id < m.heap.nextId)
    (henclosing : ∀ outer ∈ enclosing, outer < m.frames.nextId ∧ ¬m.HoldsWeakly outer) :
    m.Reaches (m.rebound enclosing receiver) := by
  have pushed := h.pushReceiver receiver hid hlt henclosing
  have same : _ ∧ (m.rebound enclosing receiver).Tidy :=
    pushed.of_same rfl rfl pushed.host pushed.current_lt pushed.isSealed.current
  exact ⟨(Earlier.push m _ enclosing).trans same.1, same.2, rfl⟩

section

variable (m) (enclosing : Option FrameId) (receiver : Value)

/-- The frame of the copy holds the receiver. -/
theorem local?_rebound :
    (m.rebound enclosing receiver).frames.local? m.frames.nextId receiverName = some receiver := by
  show Frames.local? (Frames.push ..) _ _ = _
  rw [Frames.local?_push, if_pos rfl, Bindings.find?_insert_self]

theorem enclosing?_rebound :
    (m.rebound enclosing receiver).frames.enclosing? m.frames.nextId = enclosing := by
  show Frames.enclosing? (Frames.push ..) _ = _
  rw [Frames.enclosing?_push, if_pos rfl]

theorem nextId_rebound : m.frames.nextId < (m.rebound enclosing receiver).frames.nextId :=
  m.frames.lt_nextId_push _ enclosing

end

/-- A copy that holds its receiver in full is fine. -/
theorem fine_copy (m : Machine) (enclosing : Option FrameId) (id : ObjectId) {closure : Closure}
    (hbound : closure.declaration.IsBound) :
    (m.rebound enclosing (.object id)).Fine (m.copy closure) := by
  refine ⟨⟨m.nextId_rebound enclosing _, ?_⟩, hbound, nofun⟩
  rintro ⟨other, hother⟩
  exact absurd ((m.local?_rebound enclosing (.object id)).symm.trans hother) nofun

/-- A copy is bound to the object in its frame, and stays so. -/
theorem binds_copy {final : Machine} {closure method : Closure} {receiver : Value} {owner : ObjectId}
    (hfinal : (m.rebound (some method.frame) receiver).Earlier final)
    (hclosure : closure = { method with frame := closure.frame })
    (hreceiver : receiver.objectId? = some owner) : final.Binds method owner (m.copy closure) := by
  have there := m.nextId_rebound (some method.frame) receiver
  refine ⟨_, receiver, rfl, ?_, ?_, ?_, hreceiver⟩
  · rw [hclosure]
  · rw [hfinal.enclosing_eq _ there, enclosing?_rebound]
  · rw [hfinal.receiver_iff _ there _ (by rw [hreceiver]; rfl)]
    exact m.local?_rebound _ _

end Machine

theorem rebind_eq (m : Machine) (f : Function) (receiver : Value) :
    Run.rebind f receiver m = .ok (m.copy f.closure)
      (m.rebound (m.frames.enclosing? f.closure.frame) receiver) := rfl

theorem bindFunction_eq (m : Machine) (method : Closure) (id : ObjectId) :
    (Run.bindMethod method id >>= Run.newFunction) m =
      .ok (m.copy method) (m.rebound (some method.frame) (.object id)) := rfl

namespace Machine

/-- What a method of a class needs to get a frame for a receiver. -/
theorem ClosureInFull.enclosing {method : Closure} (h : m.ClosureInFull method) :
    ∀ outer ∈ some method.frame, outer < m.frames.nextId ∧ ¬m.HoldsWeakly outer := by
  rintro _ ⟨⟩
  exact ⟨h.there, h.full⟩

/-- A bound method with its receiver in a machine that is earlier than the last one. -/
theorem Binds.earlier {final : Machine} {method : Closure} {owner : ObjectId} {f : Function}
    (h : final.Binds method owner (.function f)) (hfinal : m.Earlier final)
    (hthere : f.closure.frame < m.frames.nextId) :
    f.closure = { method with frame := f.closure.frame } ∧
      m.frames.enclosing? f.closure.frame = some method.frame ∧
      ∃ receiver, m.frames.local? f.closure.frame receiverName = some receiver ∧
        receiver.objectId? = some owner := by
  obtain ⟨_, receiver, heq, hclosure, henclosing, hlocal, hreceiver⟩ := h
  injection heq with heq
  subst heq
  rw [hfinal.enclosing_eq _ hthere] at henclosing
  rw [hfinal.receiver_iff _ hthere _ (by rw [hreceiver]; rfl)] at hlocal
  exact ⟨hclosure, henclosing, receiver, hlocal, hreceiver⟩

/-- A function with another frame for its receiver is bound as before if the object is the same. -/
theorem Binds.copy {final : Machine} {method : Closure} {owner id : ObjectId} {f : Function}
    (h : final.Binds method owner (.function f)) {old receiver : Value}
    (hlocal : m.frames.local? f.closure.frame receiverName = some old)
    (hold : old.objectId? = some id) (hreceiver : receiver.objectId? = some id)
    (hfinal : (m.rebound (m.frames.enclosing? f.closure.frame) receiver).Earlier final) :
    final.Binds method owner (m.copy f.closure) := by
  have there := m.frames.lt_nextId_of_local? (Option.isSome_of_eq_some hlocal)
  have pushed : m.Earlier (m.rebound (m.frames.enclosing? f.closure.frame) receiver) :=
    (Earlier.push m _ _).trans (.of_frames_eq rfl (Nat.le_refl _))
  obtain ⟨hclosure, henclosing, kept, hkept, howner⟩ := h.earlier (pushed.trans hfinal) there
  injection hlocal.symm.trans hkept with hsame
  subst hsame
  obtain rfl : id = owner := Option.some.inj (hold.symm.trans howner)
  rw [henclosing] at hfinal
  exact binds_copy hfinal hclosure hreceiver

/-- What is held as a receiver is there. -/
theorem Tidy.receiver_lt (h : m.Tidy) {frame : FrameId} {receiver : Value} {id : ObjectId}
    (hlocal : m.frames.local? frame receiverName = some receiver)
    (hid : receiver.objectId? = some id) : id < m.heap.nextId :=
  (h.bound frame _ _ hlocal).there id hid

/-- What a function with a receiver needs to get another frame for it. -/
theorem Tidy.enclosing (h : m.Tidy) (frame : FrameId) :
    ∀ outer ∈ m.frames.enclosing? frame, outer < m.frames.nextId ∧ ¬m.HoldsWeakly outer :=
  fun outer houter => ⟨h.enclosing_lt _ outer houter, h.isSealed.enclosing _ outer houter⟩

end Machine

/-- The initializer of a new object is bound to it. -/
theorem bindMethod_alone (h : m.Tidy) {method : Closure} (hmethod : m.ClosureInFull method)
    {id : ObjectId} (hid : id < m.heap.nextId) :
    Alone m (Run.bindMethod method id) fun m' bound =>
      m'.ClosureInFull bound ∧ bound.declaration = method.declaration := by
  have pushed := h.pushReceiver (.object id) rfl hid hmethod.enclosing
  refine .of_ok rfl ⟨.push m _ _, pushed, rfl⟩ ⟨⟨m.nextId_rebound _ _, ?_⟩, rfl⟩
  rintro ⟨other, hother⟩
  exact absurd ((m.local?_rebound (some method.frame) (.object id)).symm.trans hother) nofun

/-! ## Properties -/

/-- A function that is read from a field is bound anew if the object itself is its weak receiver. -/
theorem unstored_function (f : Function) (id : ObjectId) :
    Run.unstored id (.function f) m =
      (match m.frames.local? f.closure.frame receiverName with
        | some (.weakObject kept) => if kept = id then Run.rebind f (.object id) else pure (.function f)
        | _ => pure (.function f) : Run Value) m :=
  rfl

/-- A function that is put into a field is bound anew if the object itself is its receiver. -/
theorem stored_function (f : Function) (id : ObjectId) :
    Run.stored id (.function f) m =
      (match m.frames.local? f.closure.frame receiverName with
        | some (.object kept) => if kept = id then Run.rebind f (.weakObject id) else pure (.function f)
        | _ => pure (.function f) : Run Value) m :=
  rfl

theorem unstored_weak {f : Function} {id : ObjectId}
    (h : m.frames.local? f.closure.frame receiverName = some (.weakObject id)) :
    Run.unstored id (.function f) m = .ok (m.copy f.closure)
      (m.rebound (m.frames.enclosing? f.closure.frame) (.object id)) := by
  rw [unstored_function, h]
  simp only [if_true, rebind_eq]

theorem unstored_full {value : Value} (h : m.InFull value) (id : ObjectId) :
    Run.unstored id value m = .ok value m := by
  cases value with
  | function f =>
    rw [unstored_function]
    cases hlocal : m.frames.local? f.closure.frame receiverName with
    | none => rfl
    | some receiver =>
      cases receiver with
      | weakObject kept => exact absurd ⟨kept, hlocal⟩ h.full
      | _ => rfl
  | _ => rfl

theorem stored_own {f : Function} {id : ObjectId}
    (h : m.frames.local? f.closure.frame receiverName = some (.object id)) :
    Run.stored id (.function f) m = .ok (m.copy f.closure)
      (m.rebound (m.frames.enclosing? f.closure.frame) (.weakObject id)) := by
  rw [stored_function, h]
  simp only [if_true, rebind_eq]

theorem stored_other {value : Value} {id : ObjectId}
    (h : ∀ f, value = .function f →
      m.frames.local? f.closure.frame receiverName ≠ some (.object id)) :
    Run.stored id value m = .ok value m := by
  cases value with
  | function f =>
    rw [stored_function]
    cases hlocal : m.frames.local? f.closure.frame receiverName with
    | none => rfl
    | some receiver =>
      cases receiver with
      | object kept =>
        have hne : kept ≠ id := fun hid => h f rfl (hid ▸ hlocal)
        simp only [if_neg hne]
        rfl
      | _ => rfl
  | _ => rfl

/-- What a read of a field gives is in full, however the field keeps it, and bound alike. -/
theorem unstored_alone (h : m.Tidy) {id : ObjectId} {value : Value} (hvalue : m.Storable id value) :
    Alone m (Run.unstored id value) fun m' read => m'.Fine read ∧
      ∀ final, m'.Earlier final → ∀ method owner, final.Binds method owner value →
        final.Binds method owner read := by
  rcases hvalue.full with hfull | ⟨f, rfl, hweak⟩
  · exact .of_ok (unstored_full hfull id) h.reaches
      ⟨⟨hfull, hvalue.stands⟩, fun _ _ _ _ hbinds => hbinds⟩
  · have reaches := h.rebound (.object id) rfl (h.receiver_lt hweak rfl) (h.enclosing f.closure.frame)
    refine .of_ok (unstored_weak hweak) reaches ⟨m.fine_copy _ id hvalue.stands.bound, ?_⟩
    exact fun final hfinal method owner hbinds => hbinds.copy hweak rfl rfl hfinal

/-- What is stored holds its own object weakly, if it holds it, and is bound alike. -/
theorem stored_alone (h : m.Tidy) (id : ObjectId) {value : Value} (hvalue : m.Fine value) :
    Alone m (Run.stored id value) fun m' kept => m'.Storable id kept ∧
      ∀ final, m'.Earlier final → ∀ method owner, final.Binds method owner value →
        final.Binds method owner kept := by
  by_cases hown : ∃ f, value = .function f ∧
      m.frames.local? f.closure.frame receiverName = some (.object id)
  · obtain ⟨f, rfl, hown⟩ := hown
    have weak := m.local?_rebound (m.frames.enclosing? f.closure.frame) (.weakObject id)
    have reaches := h.rebound (.weakObject id) rfl (h.receiver_lt hown rfl)
      (h.enclosing f.closure.frame)
    refine .of_ok (stored_own hown) reaches
      ⟨⟨.inr ⟨_, rfl, weak⟩, hvalue.stands.bound, nofun⟩, ?_⟩
    exact fun final hfinal method owner hbinds => hbinds.copy hown rfl rfl hfinal
  · refine .of_ok (stored_other fun f hf hkept => hown ⟨f, hf, hkept⟩) h.reaches ?_
    exact ⟨⟨.inl hvalue.full, hvalue.stands⟩, fun _ _ _ _ hbinds => hbinds⟩

namespace Machine

/-- Methods of classes are in full. -/
theorem Tidy.method (h : m.Tidy) {id : ObjectId} {name : String} {method : Closure}
    (hmethod : m.heap.method? id name = some method) :
    m.ClosureInFull method ∧ method.declaration.IsBound ∧ id < m.heap.nextId := by
  obtain ⟨object, hobject, hfind⟩ := Option.bind_eq_some_iff.mp hmethod
  exact ⟨h.isSealed.classes id object hobject name method hfind,
    h.classes id object hobject name method hfind, Heap.lt_nextId_of_object? hobject⟩

end Machine

/-- A property that is read is fine, and a bound method if the property offers one. -/
theorem getProperty_alone (h : m.Tidy) (id : ObjectId) (name : Token) :
    Alone m (Run.getProperty id name) fun m' value => m'.Fine value ∧
      ∀ final, m'.Earlier final → ∀ method owner, m.Offers final id name.lexeme method owner →
        final.Binds method owner value := by
  refine .get ?_
  unfold Offers
  cases hfield : m.heap.field? id name.lexeme with
  | some kept => exact unstored_alone h ⟨h.isSealed.fields id _ kept hfield, h.fields id _ kept hfield⟩
  | none =>
    refine .get ?_
    cases hmethod : m.heap.method? id name.lexeme with
    | none => exact .fault h ..
    | some method =>
      obtain ⟨hfull, hbound, hid⟩ := h.method hmethod
      refine .of_ok (bindFunction_eq m method id) (h.rebound _ rfl hid hfull.enclosing)
        ⟨m.fine_copy _ id hbound, ?_⟩
      rintro final hfinal _ _ ⟨⟨⟩, rfl⟩
      exact binds_copy hfinal rfl rfl

/-- A field offers what was written. -/
theorem setProperty_alone (h : m.Tidy) {id : ObjectId} (hid : id < m.heap.nextId) (name : Token)
    {value : Value} (hvalue : m.Fine value) :
    Alone m (Run.setProperty id name value) fun m' _ =>
      ∀ final, m'.Earlier final → ∀ method owner, final.Binds method owner value →
        m'.Offers final id name.lexeme method owner := by
  refine (stored_alone h id hvalue).bind ?_
  intro m' kept hreach ⟨hkept, hbinds⟩
  have written := Earlier.setField m' id name.lexeme kept
  refine .of_ok rfl ⟨written, hreach.tidy.setField hkept name.lexeme, rfl⟩ ?_
  intro final hfinal method owner hvalue
  have there : (m'.heap.object? id).isSome :=
    (m'.heap.isSome_object? id).mpr (Nat.lt_of_lt_of_le hid hreach.earlier.objects_le)
  unfold Offers
  rw [show (Heap.setField ..).field? id name.lexeme = some kept by
    rw [Heap.field?_setField, if_pos ⟨rfl, rfl, there⟩]]
  exact hbinds final (written.trans hfinal) method owner hvalue

/-! ## The host -/

/-- What is built in full from fine values is fine. -/
theorem fine_of_builtInFull (h : m.Tidy) {arguments : List Value}
    (harguments : ∀ a ∈ arguments, m.Fine a) {value : Value}
    (hbuilt : BuiltInFull m.heap arguments value) : m.Fine value := by
  induction hbuilt with
  | argument hmem => exact harguments _ hmem
  | object _ hid ih => exact fine_object (ih.stands.there _ hid)
  | field _ _ hfield hdata =>
    refine ⟨(h.isSealed.fields _ _ _ hfield).resolve_right ?_, h.fields _ _ _ hfield⟩
    rintro ⟨f, rfl, -⟩
    exact hdata f rfl
  | cls _ _ hobject =>
    exact ⟨h.isSealed.classes _ _ hobject, h.classes _ _ hobject, nofun⟩
  | nil | boolean | number | string => exact fine_of_plain trivial

theorem callHost_alone (h : m.Tidy) (paren : Token) (f : HostFunction) {arguments : List Value}
    (harguments : ∀ a ∈ arguments, m.Fine a) :
    Alone m (Run.callHost paren f arguments) Machine.Fine := by
  refine .get ?_
  split
  · exact .pure h (fine_of_plain trivial)
  · next action haction =>
    have builds := h.host action (Array.mem_of_getElem? haction)
    have answered : Alone m
        (set { m with world := (action m.heap m.world arguments).2 } : Run Unit)
        fun _ _ => True :=
      .of_same h rfl rfl rfl rfl rfl
    refine answered.bind ?_
    intro m' _ hreach _
    split
    · next hanswer =>
      have fine := fine_of_builtInFull h harguments (builds _ _ _ _ hanswer)
      exact .pure hreach.tidy (fine.mono hreach.earlier)
    · exact .fault hreach.tidy ..

/-! ## Output and operators -/

theorem write_alone (h : m.Tidy) (text : String) :
    Alone m (Run.write text) fun _ _ => True := by
  unfold Run.write
  split
  · exact .pure h trivial
  · refine .get ?_
    split
    · exact .throw h _
    · exact .of_same h rfl rfl rfl rfl rfl

theorem unary_alone (h : m.Tidy) (operator : Token) (operand : Value) :
    Alone m (Run.unary operator operand) Machine.Fine := by
  unfold Run.unary
  split
  · exact .pure h (fine_of_plain trivial)
  · split
    · exact .pure h (fine_of_plain trivial)
    · exact .fault h ..
  · exact .fault h ..

theorem sum_alone (h : m.Tidy) (operator : Token) (left right : Value) :
    Alone m (Run.sum operator left right) Machine.Fine := by
  unfold Run.sum
  split
  · exact .pure h (fine_of_plain trivial)
  · exact .pure h (fine_of_plain trivial)
  · exact .fault h ..

theorem arithmetic_alone (h : m.Tidy) (operator : Token) {result : Float → Float → Value}
    (hresult : ∀ a b, m.Fine (result a b)) (left right : Value) :
    Alone m (Run.arithmetic operator result left right) Machine.Fine := by
  unfold Run.arithmetic
  split
  · exact .pure h (hresult _ _)
  · exact .fault h ..

theorem binary_alone (h : m.Tidy) (operator : Token) (left right : Value) :
    Alone m (Run.binary operator left right) Machine.Fine := by
  unfold Run.binary
  split
  · exact .pure h (fine_of_plain trivial)
  · exact .pure h (fine_of_plain trivial)
  · exact sum_alone h ..
  all_goals first
    | exact .fault h ..
    | exact arithmetic_alone h operator (by intro _ _; exact fine_of_plain trivial) left right

end Lox
