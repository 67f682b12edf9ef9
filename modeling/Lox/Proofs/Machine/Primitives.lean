import Lox.Proofs.Machine.Safe

/-!
# Primitives are safe

Where the scopes of an occurrence belong to the current frame, its distance leads to the frame of the
scope that it was bound to (`Layout.Runs.leads`), so variables can be looked up and assigned to safely.
Objects are safe because the frame of a receiver is the only sort of frame that holds an object under
the name of the receiver: a method that is bound, or stored and read again, gets a new frame in the
place of one of the same sort.
-/

namespace Lox

open Layout

variable {setting : Setting} {σ : Layout}

/-! ## Variables -/

namespace Layout

/-- The frame at a distance is the one of the scope at this distance. -/
theorem Runs.at {id : FrameId} {path : List Opener} {scopes : List Scope}
    (h : σ.Runs id path scopes) {d : Nat} {scope : Scope} (hd : scopes[d]? = some scope) :
    ∃ frame opener, σ.machine.frames.ancestor? d id = some frame ∧ frame ≠ Frames.globalId ∧
      frame < σ.machine.frames.nextId ∧ path[d]? = some opener ∧ σ.labels frame = some opener ∧
      (∀ name, scope.contains name = true → name ∈ opener.names) ∧
      ∀ name, scope.find? name = some true → (σ.machine.frames.local? frame name).isSome := by
  induction h generalizing d with
  | global => nomatch hd
  | @scope id outer opener inner path scopes hid hlt hlabel henclosing hheld hnames _ _ _ ih =>
    cases d with
    | zero =>
      injection hd with hd
      exact ⟨id, opener, rfl, hid, hlt, rfl, hlabel, hd ▸ hnames, hd ▸ hheld⟩
    | succ d =>
      rw [Frames.ancestor?, henclosing]
      exact ih hd

theorem Runs.around {id : FrameId} {path : List Opener} {scopes : List Scope}
    (h : σ.Runs id path scopes) {labels : Labels} (hlabels : σ.Agrees labels) :
    Around labels σ.machine.frames id path := by
  induction h with
  | global => exact .global
  | scope hid hlt hlabel henclosing _ _ _ _ _ ih =>
    exact .scope hid ((hlabels _ hlt).trans hlabel) henclosing ih

/-- The distance of an occurrence leads to the scope that it was bound to. -/
theorem Runs.leads {path : List Opener} {scopes : List Scope}
    (h : σ.Runs σ.machine.current path scopes) {labels : Labels} (hlabels : σ.Agrees labels)
    {o : Occurrence} (ho : o.Bound setting.record scopes) {d : Nat}
    (hd : setting.record.distance? o.id = some d) : Leads labels σ.machine path o d := by
  obtain ⟨hlt, hcontains, -⟩ := List.findIdx?_eq_some_iff_getElem.mp (ho.recorded.symm.trans hd)
  obtain ⟨frame, opener, hframe, hglobal, hframe_lt, hopener, hlabel, hnames, hheld⟩ :=
    h.at (List.getElem?_eq_getElem hlt)
  refine ⟨frame, opener, hframe, hglobal, hopener, (hlabels frame hframe_lt).trans hlabel,
    hnames _ hcontains, ?_⟩
  intro hrole
  obtain ⟨scope, hscope, hready⟩ := ho.ready hrole d hd
  rw [List.getElem?_eq_getElem hlt, Option.some.injEq] at hscope
  exact hheld _ (hscope ▸ hready)

end Layout

theorem found_quiet (hgood : σ.Good setting) (name : Token) {value : Option Value}
    (hvalue : ∀ v, value = some v → ValueGood setting σ v) :
    Quiet setting σ (Run.found name value) (ValueGood setting) := by
  cases value with
  | none => exact .fault hgood ..
  | some v => exact .pure hgood (hvalue v rfl).strong

theorem ancestor_quiet (hgood : σ.Good setting) {d : Nat} {frame : FrameId}
    (h : σ.machine.frames.ancestor? d σ.machine.current = some frame) :
    Quiet setting σ (Run.ancestor d) fun σ' a => σ' = σ ∧ a = frame := by
  refine .get ?_
  rw [h]
  exact .pure hgood ⟨rfl, rfl⟩

theorem lookUp_quiet (hgood : σ.Good setting) {path : List Opener} {scopes : List Scope}
    (hruns : σ.Runs σ.machine.current path scopes) {o : Occurrence}
    (ho : o.Bound setting.record scopes) :
    Quiet setting σ (Run.lookUp o.id o.token) (ValueGood setting) := by
  refine .get ?_
  rw [hgood.distances o.id]
  cases hd : setting.record.distance? o.id with
  | none =>
    refine .get (found_quiet hgood _ fun v hv => ?_)
    obtain ⟨frame, -, hlocal⟩ := Option.bind_eq_some_iff.mp hv
    exact hgood.bound frame _ v hlocal
  | some d =>
    obtain ⟨frame, -, hframe, -⟩ := hruns.leads (fun _ _ => rfl) ho hd
    refine (ancestor_quiet hgood hframe).bind ?_
    rintro _ frame - ⟨rfl, rfl⟩
    exact .get (found_quiet hgood _ fun v hv => hgood.bound frame _ v hv)

/-- Values may be bound to names that can be declared if they are good then. -/
theorem define_reaches (hgood : σ.Good setting) (id : FrameId) {name : Token} (hname : name.IsFree)
    {value : Value} (hvalue : ValueGood setting (σ.define id name.lexeme value) value) :
    Reaches setting σ (σ.define id name.lexeme value) :=
  ⟨.define .., hgood.define id hvalue (fun h => absurd h hname), rfl⟩

theorem define_quiet (hgood : σ.Good setting) {name : Token} (hname : name.IsFree) {value : Value}
    (hvalue :
      ValueGood setting (σ.define σ.machine.current name.lexeme value) value) :
    Quiet setting σ (Run.define name.lexeme value) fun σ' _ =>
      σ' = σ.define σ.machine.current name.lexeme value :=
  .of_ok rfl (define_reaches hgood _ hname hvalue) rfl

theorem redefine_quiet (hgood : σ.Good setting) (id : FrameId) {name : Token}
    (hname : name.IsFree) {value : Value} (hvalue : ValueGood setting σ value) :
    Quiet setting σ
      (modify fun m => { m with frames := m.frames.define id name.lexeme value } : Run Unit)
      fun _ _ => True :=
  .of_ok rfl (define_reaches hgood id hname (hvalue.mono (.define ..))) trivial

theorem assign_quiet (hgood : σ.Good setting) {path : List Opener} {scopes : List Scope}
    (hruns : σ.Runs σ.machine.current path scopes) {o : Occurrence}
    (ho : o.Bound setting.record scopes) (hrole : o.role = .assigned) {value : Value}
    (hvalue : ValueGood setting σ value) :
    Quiet setting σ (Run.assign o.id o.token value) fun _ _ => True := by
  refine .get ?_
  rw [hgood.distances o.id]
  cases hd : setting.record.distance? o.id with
  | none =>
    refine .get ?_
    split
    · exact redefine_quiet hgood _ (ho.free hrole) hvalue
    · exact .fault hgood ..
  | some d =>
    obtain ⟨frame, -, hframe, -⟩ := hruns.leads (fun _ _ => rfl) ho hd
    refine (ancestor_quiet hgood hframe).bind ?_
    rintro _ frame - ⟨rfl, rfl⟩
    exact redefine_quiet hgood _ (ho.free hrole) hvalue

/-! ## New frames and functions -/

theorem newFrame_quiet (hgood : σ.Good setting) (opener : Opener) {bindings : Bindings Value}
    (hvalues : ∀ name value, bindings.find? name = some value → ValueGood setting σ value)
    (hreceiver : ∀ value, bindings.find? receiverName = some value → value.objectId?.isSome →
      ∃ name methods, opener = .receiver name methods)
    (hheld : ∀ name methods, opener = .receiver name methods →
      ∃ value, bindings.find? receiverName = some value ∧ value.objectId?.isSome)
    (enclosing : Option FrameId) :
    Quiet setting σ (Run.newFrame bindings enclosing) fun σ' id =>
      σ' = σ.push opener bindings enclosing ∧ id = σ.machine.frames.nextId :=
  .of_ok rfl ⟨.push .., hgood.push hvalues hreceiver hheld enclosing, rfl⟩ ⟨rfl, rfl⟩

theorem freshIdentity_quiet (hgood : σ.Good setting) :
    Quiet setting σ Run.freshIdentity fun _ _ => True :=
  .of_same hgood rfl rfl rfl rfl rfl rfl

/-- A new function may be good only once it has its name. -/
theorem newFunction_makes (hgood : σ.Good setting) (closure : Closure) :
    Quiet setting σ (Run.newFunction closure) fun _ value =>
      ∃ identity, value = .function ⟨identity, closure⟩ :=
  (freshIdentity_quiet hgood).bind fun _ identity hreach _ => .pure hreach.good ⟨identity, rfl⟩

theorem newFunction_quiet (hgood : σ.Good setting) {closure : Closure}
    (h : ClosureGood setting σ closure) :
    Quiet setting σ (Run.newFunction closure) (ValueGood setting) := by
  refine .mono (newFunction_makes hgood closure) ?_
  rintro σ' value hreach ⟨identity, rfl⟩
  exact h.mono hreach.grows

/-! ## Receivers -/

theorem find?_receiver (receiver : Value) {name : String} {value : Value}
    (h : (Bindings.empty.insert receiverName receiver).find? name = some value) :
    value = receiver := by
  rw [Bindings.find?_insert] at h
  split at h
  · injection h with h
    exact h.symm
  · nomatch h

theorem find?_classScope {name : String} {ready : Bool}
    (h : Resolution.classScope.find? name = some ready) : name = receiverName := by
  rw [Resolution.classScope, Bindings.find?_insert] at h
  split at h
  · next hname => exact hname.symm
  · nomatch h

/-- A method in a new frame that holds only a receiver is good, if it was good inside of a class. -/
theorem bindTo_quiet (hgood : σ.Good setting) {closure : Closure} {outer : FrameId}
    {path : List Opener} {scopes : List Scope} {name : Token} {methods : List FunctionDecl}
    (hruns : σ.Runs outer path scopes)
    (hlies : BodyLies setting closure.declaration (.receiver name methods :: path))
    (hbound : closure.declaration.Bound setting.record (Resolution.classScope :: scopes))
    {receiver : Value} (hreceiver : ValueGood setting σ receiver)
    (hobject : receiver.objectId?.isSome) :
    Quiet setting σ (Run.bindTo closure (some outer) receiver) fun σ' bound =>
      ClosureGood setting σ' bound ∧ bound.declaration = closure.declaration := by
  refine (newFrame_quiet hgood (.receiver name methods) ?_ ?_ ?_ (some outer)).bind ?_
  · exact fun _ value hvalue => find?_receiver receiver hvalue ▸ hreceiver
  · exact fun _ _ _ => ⟨name, methods, rfl⟩
  · exact fun _ _ _ => ⟨receiver, Bindings.find?_insert_self .., hobject⟩
  rintro σ' frame hreach ⟨rfl, rfl⟩
  refine .pure hreach.good
    ⟨⟨_, _, hruns.push hgood _ _ ?_ ?_ (fun _ _ _ => rfl) fun _ => ⟨_, _, rfl⟩, hlies, hbound⟩, rfl⟩
  · intro key hkey
    rw [find?_classScope hkey, Bindings.find?_insert_self]
    rfl
  · intro key hkey
    obtain ⟨ready, hready⟩ := Option.isSome_iff_exists.mp hkey
    exact List.mem_singleton.mpr (find?_classScope hready)

theorem bindMethod_quiet (hgood : σ.Good setting) {method : Closure}
    (h : MethodGood setting σ method) (id : ObjectId) :
    Quiet setting σ (Run.bindMethod method id) fun σ' bound =>
      ClosureGood setting σ' bound ∧ bound.declaration = method.declaration := by
  obtain ⟨path, scopes, name, methods, hruns, hlies, hbound⟩ := h
  exact bindTo_quiet hgood hruns hlies hbound trivial rfl

/-- A frame that holds an object under the name of the receiver is the frame of a receiver. -/
theorem Layout.Runs.receiver (hgood : σ.Good setting) {id : FrameId} {path : List Opener}
    {scopes : List Scope} (h : σ.Runs id path scopes) {value : Value}
    (hvalue : σ.machine.frames.local? id receiverName = some value)
    (hobject : value.objectId?.isSome) :
    ∃ name methods outer path' scopes', path = .receiver name methods :: path' ∧
      scopes = Resolution.classScope :: scopes' ∧
      σ.machine.frames.enclosing? id = some outer ∧ σ.Runs outer path' scopes' := by
  obtain ⟨name, methods, hlabel⟩ := hgood.receivers id value hvalue hobject
  cases h with
  | global => exact absurd (hgood.global.symm.trans hlabel) nofun
  | @scope _ outer opener scope path scopes _ _ hopener henclosing _ _ hclass _ houter =>
    injection hopener.symm.trans hlabel with hsame
    subst hsame
    rw [hclass name methods rfl]
    exact ⟨name, methods, outer, path, scopes, rfl, rfl, henclosing, houter⟩

/-- A method may get another receiver in the place of the one it has. -/
theorem rebind_quiet (hgood : σ.Good setting) {f : Function}
    (hf : ClosureGood setting σ f.closure) {value : Value}
    (hvalue : σ.machine.frames.local? f.closure.frame receiverName = some value)
    (hobject : value.objectId?.isSome) {receiver : Value}
    (hreceiver : ValueGood setting σ receiver) (hkept : receiver.objectId?.isSome) :
    Quiet setting σ (Run.rebind f receiver) (ValueGood setting) := by
  obtain ⟨path, scopes, hruns, hlies, hbound⟩ := hf
  obtain ⟨name, methods, outer, path', scopes', rfl, rfl, henclosing, houter⟩ :=
    hruns.receiver hgood hvalue hobject
  refine .get ?_
  rw [henclosing]
  refine (bindTo_quiet hgood houter hlies hbound hreceiver hkept).bind ?_
  exact fun σ' closure hreach hclosure => newFunction_quiet hreach.good hclosure.1

/-! ## Properties -/

theorem unstored_quiet (hgood : σ.Good setting) (id : ObjectId) {value : Value}
    (hvalue : ValueGood setting σ value) :
    Quiet setting σ (Run.unstored id value) (ValueGood setting) := by
  unfold Run.unstored
  split
  · refine .get ?_
    split
    · next hkept =>
      split
      · exact rebind_quiet hgood hvalue hkept rfl trivial rfl
      · exact .pure hgood hvalue
    · exact .pure hgood hvalue
  · exact .pure hgood hvalue

theorem stored_quiet (hgood : σ.Good setting) (id : ObjectId) {value : Value}
    (hvalue : ValueGood setting σ value) :
    Quiet setting σ (Run.stored id value) (ValueGood setting) := by
  unfold Run.stored
  split
  · refine .get ?_
    split
    · next hkept =>
      split
      · exact rebind_quiet hgood hvalue hkept rfl trivial rfl
      · exact .pure hgood hvalue
    · exact .pure hgood hvalue
  · exact .pure hgood hvalue

theorem getProperty_quiet (hgood : σ.Good setting) (id : ObjectId) (name : Token) :
    Quiet setting σ (Run.getProperty id name) (ValueGood setting) := by
  refine .get ?_
  split
  · next hfield => exact unstored_quiet hgood id (hgood.fields id _ _ hfield)
  · refine .get ?_
    split
    · next method hmethod =>
      obtain ⟨object, hobject, hfind⟩ := Option.bind_eq_some_iff.mp hmethod
      refine (bindMethod_quiet hgood (hgood.classes id object hobject _ _ hfind) id).bind ?_
      exact fun σ' closure hreach hclosure => newFunction_quiet hreach.good hclosure.1
    · exact .fault hgood ..

theorem setProperty_quiet (hgood : σ.Good setting) (id : ObjectId) (name : Token) {value : Value}
    (hvalue : ValueGood setting σ value) :
    Quiet setting σ (Run.setProperty id name value) fun _ _ => True := by
  refine (stored_quiet hgood id hvalue).bind ?_
  intro σ' kept hreach hkept
  have reaches : Reaches setting σ' (σ'.setField id name.lexeme kept) :=
    ⟨.of_frames_eq rfl rfl, hreach.good.setField hkept id name.lexeme, rfl⟩
  exact .of_ok rfl reaches trivial

/-! ## The host -/

/-- What is built from good values is good. -/
theorem valueGood_of_builtFrom (hgood : σ.Good setting) {arguments : List Value}
    (harguments : ∀ a ∈ arguments, ValueGood setting σ a) {value : Value}
    (h : BuiltFrom σ.machine.heap arguments value) : ValueGood setting σ value := by
  cases h with
  | argument hmem => exact harguments value hmem
  | field _ _ hfield => exact hgood.fields _ _ _ hfield
  | cls _ _ hobject => exact hgood.classes _ _ hobject
  | _ => trivial

theorem callHost_quiet (hgood : σ.Good setting) (paren : Token) (f : HostFunction)
    {arguments : List Value} (harguments : ∀ a ∈ arguments, ValueGood setting σ a) :
    Quiet setting σ (Run.callHost paren f arguments) (ValueGood setting) := by
  refine .get ?_
  split
  · exact .pure hgood trivial
  · next action haction =>
    have builds := hgood.host action (Array.mem_of_getElem? haction)
    have answered : Quiet setting σ
        (set { σ.machine with world := (action σ.machine.heap σ.machine.world arguments).2 } : Run Unit)
        fun _ _ => True :=
      .of_same hgood rfl rfl rfl rfl rfl rfl
    refine answered.bind ?_
    intro σ' _ hreach _
    split
    · next hanswer =>
      have built := builds _ _ _ _ hanswer
      exact .pure hreach.good ((valueGood_of_builtFrom hgood harguments built).mono hreach.grows)
    · exact .fault hreach.good ..

/-! ## Output -/

theorem write_quiet (hgood : σ.Good setting) (text : String) :
    Quiet setting σ (Run.write text) fun _ _ => True := by
  unfold Run.write
  split
  · exact .pure hgood trivial
  · refine .get ?_
    split
    · exact .throw hgood nofun
    · exact .of_same hgood rfl rfl rfl rfl rfl rfl

/-! ## Operators -/

theorem unary_quiet (hgood : σ.Good setting) (operator : Token) (operand : Value) :
    Quiet setting σ (Run.unary operator operand) (ValueGood setting) := by
  unfold Run.unary
  split
  · exact .pure hgood trivial
  · split
    · exact .pure hgood trivial
    · exact .fault hgood ..
  · exact .fault hgood ..

theorem sum_quiet (hgood : σ.Good setting) (operator : Token) (left right : Value) :
    Quiet setting σ (Run.sum operator left right) (ValueGood setting) := by
  unfold Run.sum
  split
  · exact .pure hgood trivial
  · exact .pure hgood trivial
  · exact .fault hgood ..

theorem arithmetic_quiet (hgood : σ.Good setting) (operator : Token)
    {result : Float → Float → Value} (hresult : ∀ a b, ValueGood setting σ (result a b))
    (left right : Value) :
    Quiet setting σ (Run.arithmetic operator result left right) (ValueGood setting) := by
  unfold Run.arithmetic
  split
  · exact .pure hgood (hresult _ _)
  · exact .fault hgood ..

theorem binary_quiet (hgood : σ.Good setting) (operator : Token) (left right : Value) :
    Quiet setting σ (Run.binary operator left right) (ValueGood setting) := by
  unfold Run.binary
  split
  · exact .pure hgood trivial
  · exact .pure hgood trivial
  · exact sum_quiet hgood ..
  all_goals first
    | exact .fault hgood ..
    | exact arithmetic_quiet hgood operator (by intro _ _; trivial) left right

end Lox
