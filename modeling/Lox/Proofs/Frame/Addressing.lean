import Lox.Proofs.Frame.Basic
import Lox.Proofs.Machine.Contained
import Mathlib.Order.Bounds.Basic

/-!
# By name and by distance

A name can be looked up from a frame outwards, or in the frame at a distance that was found before. Both
are the same if the distance is the least one at which the name is held, and so are the two ways of binding
the name anew (`addresses_agree`).

Frames are built one inside the other, and what a frame is inside of never changes. So the numbers of the
frames go down on the way outwards, and it ends.
-/

namespace Lox

namespace Frames

variable {α : Type}

/-! ## Frames as they are built -/

/-- Frames that were added one by one, inside of frames that were there or on their own, and in which names
were bound: in a frame itself, by name from a frame outwards, or at a distance from a frame. -/
inductive Built : Frames α → Prop
  | none : Built ⟨#[]⟩
  | root {frames : Frames α} (bindings : Bindings α) : Built frames → Built (frames.push bindings none)
  | push {frames : Frames α} {outer : FrameId} (bindings : Bindings α) : Built frames →
      outer < frames.nextId → Built (frames.push bindings (some outer))
  | define {frames : Frames α} (id : FrameId) (name : String) (a : α) : Built frames →
      Built (frames.define id name a)
  | assign {frames frames' : Frames α} {id : FrameId} {name : String} {a : α} : Built frames →
      frames.assign? id name a = some frames' → Built frames'
  | assignAt {frames : Frames α} {id frame : FrameId} {d : Nat} (name : String) (a : α) : Built frames →
      frames.ancestor? d id = some frame → Built (frames.define frame name a)

/-- Every frame is newer than the one around it. -/
def Outward (frames : Frames α) : Prop := ∀ ⦃id outer⦄, frames.enclosing? id = some outer → outer < id

theorem Outward.define {frames : Frames α} (h : frames.Outward) (id : FrameId) (name : String) (a : α) :
    (frames.define id name a).Outward := by
  intro other outer houter
  rw [enclosing?_define] at houter
  exact h houter

theorem Outward.push {frames : Frames α} (h : frames.Outward) (bindings : Bindings α)
    {enclosing : Option FrameId} (henclosing : ∀ outer ∈ enclosing, outer < frames.nextId) :
    (frames.push bindings enclosing).Outward := by
  intro id outer houter
  rw [enclosing?_push] at houter
  split at houter
  · next hid => exact hid ▸ henclosing outer houter
  · exact h houter

theorem Built.outward {frames : Frames α} (h : frames.Built) : frames.Outward := by
  induction h with
  | none => exact nofun
  | root bindings _ ih => exact ih.push bindings nofun
  | push bindings _ hlt ih =>
    refine ih.push bindings fun outer houter => ?_
    obtain rfl := Option.some.inj houter
    exact hlt
  | define id name a _ ih => exact ih.define id name a
  | assign _ hassign ih =>
    obtain ⟨holder, -, rfl⟩ := Option.map_eq_some_iff.mp hassign
    exact ih.define holder _ _
  | assignAt name a _ _ ih => exact ih.define _ name a

/-! ## Depth -/

/-- The number of frames around a frame. -/
inductive HasDepth (frames : Frames α) : FrameId → Nat → Prop
  | root {id : FrameId} : frames.enclosing? id = none → HasDepth frames id 0
  | inside {id outer : FrameId} {n : Nat} : frames.enclosing? id = some outer →
      HasDepth frames outer n → HasDepth frames id (n + 1)

theorem Outward.exists_depth {frames : Frames α} (h : frames.Outward) (id : FrameId) :
    ∃ n, frames.HasDepth id n := by
  induction id using Nat.strongRecOn with
  | ind id ih =>
    cases henclosing : frames.enclosing? id with
    | none => exact ⟨0, .root henclosing⟩
    | some outer =>
      obtain ⟨n, hn⟩ := ih outer (h henclosing)
      exact ⟨n + 1, .inside henclosing hn⟩

/-- There are ancestors as far as a frame is deep, and no further. -/
theorem HasDepth.isSome_ancestor? {frames : Frames α} {id : FrameId} {n : Nat}
    (h : frames.HasDepth id n) (d : Nat) : (frames.ancestor? d id).isSome ↔ d ≤ n := by
  induction h generalizing d with
  | root henclosing =>
    cases d with
    | zero => exact ⟨fun _ => Nat.le_refl 0, fun _ => rfl⟩
    | succ d => simp [ancestor?, henclosing]
  | inside henclosing _ ih =>
    cases d with
    | zero => exact ⟨fun _ => Nat.zero_le _, fun _ => rfl⟩
    | succ d =>
      rw [ancestor?, henclosing, Option.bind_some, ih d]
      exact Nat.succ_le_succ_iff.symm

/-- An ancestor is not newer. -/
theorem Outward.ancestor?_le {frames : Frames α} (h : frames.Outward) {d : Nat} {id frame : FrameId}
    (hframe : frames.ancestor? d id = some frame) : frame ≤ id := by
  induction d generalizing id with
  | zero => exact Nat.le_of_eq (Option.some.inj hframe).symm
  | succ d ih =>
    obtain ⟨outer, houter, hframe⟩ := Option.bind_eq_some_iff.mp hframe
    exact Nat.le_trans (ih hframe) (Nat.le_of_lt (h houter))

/-! ## Where a name is held -/

/-- The distances from a frame at which a name is held. -/
def distancesTo (frames : Frames α) (id : FrameId) (name : String) : Set Nat :=
  {d | ∃ frame, frames.ancestor? d id = some frame ∧ (frames.local? frame name).isSome}

section

variable {frames : Frames α} {id outer : FrameId} {name : String}

theorem zero_mem_distancesTo :
    0 ∈ frames.distancesTo id name ↔ (frames.local? id name).isSome := by
  refine ⟨?_, fun h => ⟨id, rfl, h⟩⟩
  rintro ⟨frame, hframe, hheld⟩
  obtain rfl := Option.some.inj hframe
  exact hheld

theorem succ_mem_distancesTo (h : frames.enclosing? id = some outer) {d : Nat} :
    d + 1 ∈ frames.distancesTo id name ↔ d ∈ frames.distancesTo outer name := by
  show (∃ frame, (frames.enclosing? id).bind (frames.ancestor? d) = some frame ∧ _) ↔ _
  rw [h, Option.bind_some]
  rfl

theorem Outward.holderWithin_eq (h : frames.Outward) {bound bound' : Nat} (hbound : id < bound)
    (hbound' : id < bound') :
    frames.holderWithin name bound id = frames.holderWithin name bound' id := by
  induction bound generalizing bound' id with
  | zero => exact absurd hbound (Nat.not_lt_zero id)
  | succ bound ih =>
    cases bound' with
    | zero => exact absurd hbound' (Nat.not_lt_zero id)
    | succ bound' =>
      rw [holderWithin, holderWithin]
      split
      · rfl
      · cases henclosing : frames.enclosing? id with
        | none => rfl
        | some outer =>
          -- the frame around is older, so one step less is still enough
          have hlt := h henclosing
          exact ih (Nat.lt_of_lt_of_le hlt (Nat.le_of_lt_succ hbound))
            (Nat.lt_of_lt_of_le hlt (Nat.le_of_lt_succ hbound'))

/-- A frame holds a name itself, or what is around it does. -/
theorem Outward.holder?_eq (h : frames.Outward) (id : FrameId) (name : String) :
    frames.holder? id name =
      if (frames.local? id name).isSome then some id
      else (frames.enclosing? id).bind (frames.holder? · name) := by
  rw [holder?, holderWithin]
  split
  · rfl
  · cases henclosing : frames.enclosing? id with
    | none => rfl
    | some outer => exact h.holderWithin_eq (h henclosing) (Nat.lt_succ_self outer)

/-- By name, the frame is found that is at the least distance. -/
theorem Outward.holder?_of_isLeast (h : frames.Outward) {d : Nat}
    (hleast : IsLeast (frames.distancesTo id name) d) :
    ∃ frame, frames.ancestor? d id = some frame ∧ frames.holder? id name = some frame ∧
      (frames.local? frame name).isSome := by
  induction d generalizing id with
  | zero =>
    have held := zero_mem_distancesTo.mp hleast.1
    exact ⟨id, rfl, by rw [h.holder?_eq, if_pos held], held⟩
  | succ d ih =>
    have notHere : ¬(frames.local? id name).isSome := fun held =>
      Nat.not_succ_le_zero d (hleast.2 (zero_mem_distancesTo.mpr held))
    cases henclosing : frames.enclosing? id with
    | none =>
      obtain ⟨frame, hframe, -⟩ := hleast.1
      simp [ancestor?, henclosing] at hframe
    | some outer =>
      -- one step outwards takes one off every distance, as the frame itself does not hold the name
      have around : IsLeast (frames.distancesTo outer name) d := by
        refine ⟨(succ_mem_distancesTo henclosing).mp hleast.1, fun d' hd' => ?_⟩
        exact Nat.succ_le_succ_iff.mp (hleast.2 ((succ_mem_distancesTo henclosing).mpr hd'))
      obtain ⟨frame, hframe, hholder, held⟩ := ih around
      refine ⟨frame, ?_, ?_, held⟩
      · rw [ancestor?, henclosing, Option.bind_some, hframe]
      · rw [h.holder?_eq, if_neg notHere, henclosing, Option.bind_some, hholder]

/-- By name, nothing is found if the name is held nowhere. -/
theorem Outward.holder?_of_empty (h : frames.Outward) (hempty : frames.distancesTo id name = ∅) :
    frames.holder? id name = none := by
  induction id using Nat.strongRecOn with
  | ind id ih =>
    have nowhere := Set.eq_empty_iff_forall_notMem.mp hempty
    have notHere : ¬(frames.local? id name).isSome := fun held =>
      nowhere 0 (zero_mem_distancesTo.mpr held)
    rw [h.holder?_eq, if_neg notHere]
    cases henclosing : frames.enclosing? id with
    | none => rfl
    | some outer =>
      refine ih outer (h henclosing) (Set.eq_empty_iff_forall_notMem.mpr fun d hd => ?_)
      exact nowhere (d + 1) ((succ_mem_distancesTo henclosing).mpr hd)

end

end Frames

namespace Run

/-! ## Reading and binding anew -/

/-- The value of a name in the first frame from one outwards that holds it. -/
def readFrom (id : FrameId) (name : Token) : Run Value := do
  found name ((← get).frames.find? id name.lexeme)

/-- The value of a name in the frame at a distance from one. -/
def readAt (id : FrameId) (d : Nat) (name : Token) : Run Value := do
  match (← get).frames.ancestor? d id with
  | some frame => found name ((← get).frames.local? frame name.lexeme)
  | none => throw .strayed

/-- Binds a name anew in the first frame from one outwards that holds it. -/
def writeFrom (id : FrameId) (name : Token) (value : Value) : Run Unit := do
  match (← get).frames.assign? id name.lexeme value with
  | some frames => modify fun m => { m with frames := frames }
  | none => fault name.line (.undefinedVariable name.lexeme)

/-- Binds a name in the frame at a distance from one. -/
def writeAt (id : FrameId) (d : Nat) (name : Token) (value : Value) : Run Unit := do
  match (← get).frames.ancestor? d id with
  | some frame => modify fun m => { m with frames := m.frames.define frame name.lexeme value }
  | none => throw .strayed

variable {m : Machine}

theorem readAt_run (id : FrameId) (d : Nat) (name : Token) :
    readAt id d name m = match m.frames.ancestor? d id with
      | some frame => found name (m.frames.local? frame name.lexeme) m
      | none => .error .strayed m := by
  show (match m.frames.ancestor? d id with
    | some frame => _
    | none => _ : Run Value) m = _
  cases m.frames.ancestor? d id <;> rfl

theorem writeFrom_run (id : FrameId) (name : Token) (value : Value) :
    writeFrom id name value m = match m.frames.holder? id name.lexeme with
      | some frame => .ok () { m with frames := m.frames.define frame name.lexeme value }
      | none => .error (.stopped (.runtime name.line (.undefinedVariable name.lexeme))) m := by
  show (match (m.frames.holder? id name.lexeme).map (m.frames.define · name.lexeme value) with
    | some frames => _
    | none => _ : Run Unit) m = _
  cases m.frames.holder? id name.lexeme <;> rfl

theorem writeAt_run (id : FrameId) (d : Nat) (name : Token) (value : Value) :
    writeAt id d name value m = match m.frames.ancestor? d id with
      | some frame => .ok () { m with frames := m.frames.define frame name.lexeme value }
      | none => .error .strayed m := by
  show (match m.frames.ancestor? d id with
    | some frame => _
    | none => _ : Run Unit) m = _
  cases m.frames.ancestor? d id <;> rfl

theorem ancestor_run (d : Nat) :
    ancestor d m = match m.frames.ancestor? d m.current with
      | some frame => .ok frame m
      | none => .error .strayed m := by
  show (match m.frames.ancestor? d m.current with
    | some frame => _
    | none => _ : Run FrameId) m = _
  cases m.frames.ancestor? d m.current <;> rfl

/-- A variable is read at the distance of its occurrence from the current frame or, without a distance, by
name from the global frame. -/
theorem lookUp_run (o : OccurrenceId) (name : Token) :
    lookUp o name m = match m.distances[o]? with
      | some d => readAt m.current d name m
      | none => readFrom Frames.globalId name m := by
  show (match m.distances[o]? with
    | some d => _
    | none => _ : Run Value) m = _
  cases m.distances[o]? with
  | none => rfl
  | some d =>
    have way := ancestor_run (m := m) d
    have read := readAt_run (m := m) m.current d name
    cases h : m.frames.ancestor? d m.current with
    | none =>
      rw [h] at way read
      exact (bind_error way _).trans read.symm
    | some frame =>
      rw [h] at way read
      exact (bind_ok way _).trans read.symm

/-- A variable is bound anew in the same way. -/
theorem assign_run (o : OccurrenceId) (name : Token) (value : Value) :
    assign o name value m = match m.distances[o]? with
      | some d => writeAt m.current d name value m
      | none => writeFrom Frames.globalId name value m := by
  show (match m.distances[o]? with
    | some d => _
    | none => _ : Run Unit) m = _
  cases m.distances[o]? with
  | none =>
    rw [writeFrom_run]
    show (match m.frames.holder? Frames.globalId name.lexeme with
      | some frame => _
      | none => _ : Run Unit) m = _
    cases m.frames.holder? Frames.globalId name.lexeme <;> rfl
  | some d =>
    have way := ancestor_run (m := m) d
    have written := writeAt_run (m := m) m.current d name value
    cases h : m.frames.ancestor? d m.current with
    | none =>
      rw [h] at way written
      exact (bind_error way _).trans written.symm
    | some frame =>
      rw [h] at way written
      exact (bind_ok way _).trans written.symm

end Run

/-! ## The two ways of addressing -/

/-- A machine in which a name was bound in one frame. The value is read through every frame from which that
frame can be reached, at the distance at which it is, and nothing else has changed. -/
structure Machine.BoundAt (m m' : Machine) (frame : FrameId) (name : Token) (value : Value) : Prop where
  seen : ∀ other d, m.frames.ancestor? d other = some frame →
    Run.readAt other d name m' = .ok value.strong m'
  others : ∀ other key, other ≠ frame ∨ key ≠ name.lexeme →
    m'.frames.local? other key = m.frames.local? other key
  enclosing : ∀ other, m'.frames.enclosing? other = m.frames.enclosing? other
  nextId : m'.frames.nextId = m.frames.nextId
  rest : m' = { m with frames := m'.frames }

/-- By name from a frame is at the least distance from it at which the name is held. If it is held nowhere,
nothing is found and nothing changes. Steps outwards add up, and lead as far as the frame is deep. -/
structure AddressesAgree (m : Machine) (id : FrameId) (name : Token) (value : Value) : Prop where
  nearest : ∀ d, IsLeast (m.frames.distancesTo id name.lexeme) d → ∃ v m',
    Run.readFrom id name m = .ok v m ∧ Run.readAt id d name m = .ok v m ∧
      Run.writeFrom id name value m = .ok () m' ∧ Run.writeAt id d name value m = .ok () m'
  nowhere : m.frames.distancesTo id name.lexeme = ∅ →
    Run.readFrom id name m =
        .error (.stopped (.runtime name.line (.undefinedVariable name.lexeme))) m ∧
      Run.writeFrom id name value m =
        .error (.stopped (.runtime name.line (.undefinedVariable name.lexeme))) m
  steps : ∀ d d', m.frames.ancestor? (d + d') id =
    (m.frames.ancestor? d id).bind (m.frames.ancestor? d')
  depth : ∃ n, m.frames.HasDepth id n ∧ ∀ d, (m.frames.ancestor? d id).isSome ↔ d ≤ n
  bound : ∀ d frame, m.frames.ancestor? d id = some frame → ∃ m',
    Run.writeAt id d name value m = .ok () m' ∧ m.BoundAt m' frame name value

section

variable {m : Machine} {frame : FrameId}

theorem boundAt_define (hframe : frame < m.frames.nextId) (name : Token) (value : Value) :
    m.BoundAt { m with frames := m.frames.define frame name.lexeme value } frame name value where
  seen other d hd := by
    have there := (m.frames.isSome_frame? frame).mpr hframe
    have same := Frames.ancestor?_congr (m.frames.enclosing?_define frame · name.lexeme value) d other
    rw [Run.readAt_run, same, hd]
    simp only [Frames.local?_define, there, and_self, if_true]
    rfl
  others other key hother := by
    have elsewhere : ¬(frame = other ∧ name.lexeme = key ∧ (m.frames.frame? frame).isSome) := by
      rintro ⟨rfl, rfl, -⟩
      exact hother.elim (absurd rfl) (absurd rfl)
    exact (m.frames.local?_define ..).trans (if_neg elsewhere)
  enclosing other := m.frames.enclosing?_define ..
  nextId := m.frames.nextId_define ..
  rest := rfl

end

/-- From every frame, in frames however they were built, a name is the same by name and by its least
distance, to read it as well as to bind it anew. What is bound at a distance is bound for every frame that
can reach it, and nothing else changes. This is how the variables of a run are read and bound, and all
values but those that are kept weakly are read as they were bound. -/
theorem addresses_agree {m : Machine} (hbuilt : m.frames.Built) {id : FrameId}
    (hid : id < m.frames.nextId) (name : Token) (value : Value) :
    AddressesAgree m id name value ∧
      (value.strong = value ∨ ∃ kept, value = .weakObject kept ∧ value.strong = .object kept) ∧
      (∀ o, Run.lookUp o name m = match m.distances[o]? with
        | some d => Run.readAt m.current d name m
        | none => Run.readFrom Frames.globalId name m) ∧
      ∀ o, Run.assign o name value m = match m.distances[o]? with
        | some d => Run.writeAt m.current d name value m
        | none => Run.writeFrom Frames.globalId name value m := by
  have outward := hbuilt.outward
  refine ⟨⟨?_, ?_, fun d d' => m.frames.ancestor?_add d d' id, ?_, ?_⟩, ?_,
    fun o => Run.lookUp_run o name, fun o => Run.assign_run o name value⟩
  · intro d hd
    obtain ⟨frame, hframe, hholder, hheld⟩ := outward.holder?_of_isLeast hd
    obtain ⟨v, hv⟩ := Option.isSome_iff_exists.mp hheld
    refine ⟨v.strong, { m with frames := m.frames.define frame name.lexeme value }, ?_, ?_, ?_, ?_⟩
    · show Run.found name ((m.frames.holder? id name.lexeme).bind _) m = _
      rw [hholder, Option.bind_some, hv]
      rfl
    · simp only [Run.readAt_run, hframe, hv]
      rfl
    · rw [Run.writeFrom_run, hholder]
    · rw [Run.writeAt_run, hframe]
  · intro hempty
    have none := outward.holder?_of_empty hempty
    refine ⟨?_, by rw [Run.writeFrom_run, none]⟩
    show Run.found name ((m.frames.holder? id name.lexeme).bind _) m = _
    rw [none]
    rfl
  · obtain ⟨n, hn⟩ := outward.exists_depth id
    exact ⟨n, hn, hn.isSome_ancestor?⟩
  · intro d frame hframe
    have there := Nat.lt_of_le_of_lt (outward.ancestor?_le hframe) hid
    exact ⟨_, by rw [Run.writeAt_run, hframe], boundAt_define there name value⟩
  · cases value with
    | weakObject kept => exact .inr ⟨kept, rfl, rfl⟩
    | _ => exact .inl rfl

/-- Two frames inside of one that holds a name, which the frame around them holds as well. -/
private def siblings : Frames Value :=
  (((((Frames.start.define 0 "v" .nil).push .empty (some 0)).define 1 "v" (.boolean false)).push
    .empty (some 1)).push .empty (some 1))

/-- What is bound by name through one of two siblings is read through the other, and the global frame
keeps what it has. -/
theorem addresses_agree_siblings :
    siblings.Built ∧ 2 < siblings.nextId ∧ ∃ m',
      Run.writeFrom 2 ⟨.identifier, "v", 1⟩ (.boolean true)
          { Machine.blank (.start none) (.start []) with frames := siblings } = .ok () m' ∧
        Run.readAt 3 1 ⟨.identifier, "v", 1⟩ m' = .ok (.boolean true) m' ∧
        m'.frames.local? 0 "v" = some .nil := by
  have built : siblings.Built :=
    .push _ (.push _ (.define _ _ _ (.push _ (.define _ _ _ (.root _ .none)) (by decide))) (by decide))
      (by decide)
  have there : 2 < siblings.nextId := by decide
  have agree := (addresses_agree (m := { Machine.blank (.start none) (.start []) with frames := siblings })
    built there ⟨.identifier, "v", 1⟩ (.boolean true)).1
  have least : IsLeast (siblings.distancesTo 2 "v") 1 := by
    refine ⟨⟨1, rfl, rfl⟩, fun d hd => ?_⟩
    cases d with
    | zero => exact absurd (Frames.zero_mem_distancesTo.mp hd) (by decide)
    | succ d => exact Nat.succ_le_succ (Nat.zero_le d)
  obtain ⟨_, m', -, -, byName, byDistance⟩ := agree.nearest 1 least
  obtain ⟨m'', written, bound⟩ := agree.bound 1 1 rfl
  obtain rfl : m' = m'' := by
    rw [byDistance] at written
    injection written
  refine ⟨built, there, m', byName, bound.seen 3 1 rfl, ?_⟩
  exact (bound.others 0 "v" (.inl (by decide))).trans rfl

end Lox
