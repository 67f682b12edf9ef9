import Lox.Proofs.Machine.Widening
import Lox.Proofs.Receiver.Keeping
import Lox.Proofs.Trace.Watched

/-!
# What runs do to the globals

The global frame is the one that all frames go back to, so a distance that is too large by one would lead
there. None does: where code is placed, a recorded assignment leads to the frame of a scope
(`Code.Lands`). And a run that starts in the frame of a scope declares nothing outside of it.

So such a run *leaves* the globals (`Machine.Leaves`): the names in the global frame are the same, and what
a name stands for there changes only if the trace starts an assignment to it without a distance. It also
holds in the global frame itself, for all that declares nothing there.
-/

namespace Lox

variable {α β : Type}

/-! ## Moments that have to do with the globals -/

/-- What a name stands for in the global frame. -/
def Machine.global? (m : Machine) (name : String) : Option Value :=
  m.frames.local? Frames.globalId name

/-- The distance of an assignment, if it has one, leads to a frame, but not to the global one. -/
def Code.Lands (m : Machine) : Code → Prop
  | .expression (.assign id _ _) => ∀ d, m.distances[id]? = some d →
    ∃ frame, m.frames.ancestor? d m.current = some frame ∧ frame ≠ Frames.globalId
  | _ => True

/-- The statement declares nothing in the global frame, and no branch of it does. -/
def Stmt.Stays (m : Machine) (t : Stmt) : Prop :=
  m.current ≠ Frames.globalId ∨ t.declared? = none ∧ t.WellNamed

namespace Moment

/-- The code that is started leads to no global by a distance. -/
def Lands (moment : Moment) : Prop :=
  ∀ code, moment.happening = .starts code → code.Lands moment.machine

/-- An assignment to a name is started whose occurrence has no distance, and comes to its end with a
value. -/
def Assigns (moment : Moment) (name : String) (value : Value) : Prop :=
  ∃ id token e, moment.happening = .starts (.expression (.assign id token e)) ∧ token.lexeme = name ∧
    moment.machine.distances[id]? = none ∧
    ∃ fuel m', Run.evaluate fuel (.assign id token e) moment.machine = .ok value m'

/-- If a statement is started, it declares nothing in the global frame. -/
def Stays (moment : Moment) : Prop :=
  ∀ t, moment.happening = .starts (.statement t) → t.Stays moment.machine

end Moment

/-- Where code is placed, the distance of an assignment leads to the frame of a scope. -/
theorem Placed.lands {labels : Labels} {units : List Code} {code : Code} {m : Machine}
    (h : Placed labels units code m) : code.Lands m := by
  obtain ⟨path, -, -, hleads⟩ := h
  cases code with
  | statement t => trivial
  | expression e =>
    cases e with
    | assign id name value =>
      intro d hd
      obtain ⟨frame, -, hframe, hlocal, -⟩ := hleads ⟨.assigned, id, name⟩ rfl d hd
      exact ⟨frame, hframe, hlocal⟩
    | _ => trivial

/-! ## Runs that leave the globals -/

namespace Machine

/-- The same names are bound in the global frame, and they stand for the same, or for what the trace assigns
to them without a distance. Nothing is declared there. -/
structure Leaves (m : Machine) (trace : List Moment) (m' : Machine) : Prop where
  nextId_le : m.frames.nextId ≤ m'.frames.nextId
  enclosing_eq : ∀ frame < m.frames.nextId, m'.frames.enclosing? frame = m.frames.enclosing? frame
  names : ∀ name, (m'.global? name).isSome = (m.global? name).isSome
  values : ∀ name, m'.global? name ≠ m.global? name →
    ∃ moment ∈ trace, ∃ value, moment.Assigns name value ∧ m'.global? name = some value
  stays : ∀ moment ∈ trace, moment.Stays

variable {m m' m'' : Machine} {trace trace' : List Moment}

theorem Leaves.trans (h : m.Leaves trace m') (h' : m'.Leaves trace' m'') :
    m.Leaves (trace ++ trace') m'' where
  nextId_le := Nat.le_trans h.nextId_le h'.nextId_le
  enclosing_eq frame hframe :=
    (h'.enclosing_eq frame (Nat.lt_of_lt_of_le hframe h.nextId_le)).trans (h.enclosing_eq frame hframe)
  names name := (h'.names name).trans (h.names name)
  values name hname := by
    -- what the second trace does not assign to stands for what the first one has left
    by_cases hsecond : m''.global? name = m'.global? name
    · rw [hsecond] at hname ⊢
      obtain ⟨moment, hmem, hassigns⟩ := h.values name hname
      exact ⟨moment, List.mem_append_left _ hmem, hassigns⟩
    · obtain ⟨moment, hmem, hassigns⟩ := h'.values name hsecond
      exact ⟨moment, List.mem_append_right _ hmem, hassigns⟩
  stays := List.forall_mem_append.mpr ⟨h.stays, h'.stays⟩

/-- The order in which things happen does not matter. -/
theorem Leaves.of_mem_iff (h : m.Leaves trace m') (hmem : ∀ moment, moment ∈ trace ↔ moment ∈ trace') :
    m.Leaves trace' m' where
  nextId_le := h.nextId_le
  enclosing_eq := h.enclosing_eq
  names := h.names
  values name hname := by
    obtain ⟨moment, hmoment, hassigns⟩ := h.values name hname
    exact ⟨moment, (hmem moment).mp hmoment, hassigns⟩
  stays moment hmoment := h.stays moment ((hmem moment).mpr hmoment)

theorem Leaves.cons (h : m.Leaves trace m') {first : Moment} (hfirst : first.Stays) :
    m.Leaves (first :: trace) m' where
  nextId_le := h.nextId_le
  enclosing_eq := h.enclosing_eq
  names := h.names
  values name hname := by
    obtain ⟨moment, hmem, hassigns⟩ := h.values name hname
    exact ⟨moment, List.mem_cons_of_mem _ hmem, hassigns⟩
  stays := List.forall_mem_cons.mpr ⟨hfirst, h.stays⟩

/-- What leaves all frames alone leaves the globals. -/
theorem Widens.leaves (h : m.Widens m') (hpos : Frames.globalId < m.frames.nextId)
    (htrace : ∀ moment ∈ trace, moment.Stays) : m.Leaves trace m' where
  nextId_le := h.nextId_le
  enclosing_eq := h.enclosing_eq
  names name := congrArg Option.isSome (h.local_eq _ hpos name)
  values name hname := absurd (h.local_eq _ hpos name) hname
  stays := htrace

theorem Widens.leaves_nil (h : m.Widens m') (hpos : Frames.globalId < m.frames.nextId) :
    m.Leaves [] m' :=
  h.leaves hpos nofun

/-- A name that is bound in another frame is not bound in the global one. -/
theorem global?_define {frame : FrameId} (hframe : frame ≠ Frames.globalId) (m : Machine)
    (name : String) (value : Value) (key : String) :
    (m.define frame name value).global? key = m.global? key := by
  show Frames.local? (Frames.define ..) _ _ = _
  rw [Frames.local?_define, if_neg fun h => hframe h.1]
  rfl

/-- What is declared in another frame leaves the globals. -/
theorem Leaves.define {frame : FrameId} (hframe : frame ≠ Frames.globalId) (name : String)
    (value : Value) (htrace : ∀ moment ∈ trace, moment.Stays) :
    m.Leaves trace (m.define frame name value) where
  nextId_le := Nat.le_of_eq (m.frames.nextId_define ..).symm
  enclosing_eq _ _ := m.frames.enclosing?_define ..
  names key := congrArg Option.isSome (global?_define hframe m name value key)
  values key hkey := absurd (global?_define hframe m name value key) hkey
  stays := htrace

/-- A name is bound in the global frame. -/
theorem global?_define_global (hpos : Frames.globalId < m.frames.nextId) (name : String) (value : Value)
    (key : String) : (m.define Frames.globalId name value).global? key =
      if name = key then some value else m.global? key := by
  have there : (m.frames.frame? Frames.globalId).isSome := by
    show (m.frames.all[Frames.globalId]?).isSome
    rw [Array.getElem?_eq_getElem hpos]
    rfl
  show Frames.local? (Frames.define ..) _ _ = _
  rw [Frames.local?_define]
  simp only [there, and_true, true_and]
  rfl

/-- A distance leads to the same frame as long as frames keep what encloses them. -/
theorem ancestor?_eq (henclosing : ∀ frame < m.frames.nextId,
    m'.frames.enclosing? frame = m.frames.enclosing? frame) {d : Nat} {id frame : FrameId}
    (h : m.frames.ancestor? d id = some frame) : m'.frames.ancestor? d id = some frame := by
  induction d generalizing id with
  | zero => exact h
  | succ d ih =>
    obtain ⟨outer, houter, hframe⟩ := Option.bind_eq_some_iff.mp h
    have same := (henclosing id (m.frames.lt_nextId_of_enclosing? houter)).trans houter
    exact Option.bind_eq_some_iff.mpr ⟨outer, same, ih hframe⟩

end Machine

open Machine

variable {m m' : Machine}

/-- If all of its assignments land, the run leaves the globals. -/
def Confined (m : Machine) (t : Traced α) : Prop :=
  Frames.globalId < m.frames.nextId → (∀ moment ∈ t.trace m, moment.Lands) →
    m.Leaves (t.trace m) (Run.last (t.run m))

namespace Confined

variable {t : Traced α}

/-- A run that leaves all frames alone, and starts no code. -/
theorem of_widens (h : m.Widens (Run.last (t.run m)))
    (htrace : ∀ moment ∈ t.trace m, ∀ code, moment.happening ≠ .starts code) : Confined m t :=
  fun hpos _ => h.leaves hpos fun moment hmoment _ hstarts => absurd hstarts (htrace moment hmoment _)

protected theorem pure (a : α) : Confined m (pure a) := of_widens (.refl m) nofun

theorem silent {p : Run α} {hp : Silent p} (h : Keeping Widens p) : Confined m (.silent p hp) :=
  of_widens (h.keeps m) nofun

theorem noted {what : Happening} {p : Run α} {hwhat : what.text = ""} {hp : Silent p}
    (hwhat' : ∀ code, what ≠ .starts code) (h : Keeping Widens p) :
    Confined m (.noted what p hwhat hp) :=
  of_widens (h.keeps m) (List.forall_mem_singleton.mpr hwhat')

theorem write (text : String) : Confined m (.write text) :=
  of_widens ((Run.write_keeping text).keeps m) (List.forall_mem_singleton.mpr nofun)

/-- What runs behind something starts in the same frame. -/
protected theorem bind (h : Confined m t) {f : α → Traced β}
    (hf : ∀ a m', t.run m = .ok a m' → Frames.globalId < m'.frames.nextId → m.Spared m' →
      Confined m' (f a)) : Confined m (t >>= f) := by
  intro hpos hlands
  have trace : (t >>= f).trace m = Accounts.follow t.run t.trace (fun a => (f a).trace) m := rfl
  have run : (t >>= f).run m = (t.run >>= fun a => (f a).run) m := rfl
  have spared := t.accounts.contained.spared m
  have first := h hpos
  rw [trace] at hlands
  rw [trace, run]
  cases hrun : t.run m with
  | error interrupt m' =>
    rw [Accounts.follow_error hrun] at hlands
    rw [hrun] at first
    rw [Accounts.follow_error hrun, Run.bind_error hrun]
    exact first hlands
  | ok a m' =>
    rw [hrun] at spared first
    rw [Accounts.follow_ok hrun] at hlands
    rw [Accounts.follow_ok hrun, Run.bind_ok hrun]
    obtain ⟨hfirst, hnext⟩ := List.forall_mem_append.mp hlands
    have first : m.Leaves (t.trace m) m' := first hfirst
    have hpos' := Nat.lt_of_lt_of_le hpos first.nextId_le
    exact first.trans (hf a m' hrun hpos' spared hpos' hnext)

theorem inFrame {frame : FrameId} (h : Confined (m.inside frame) t) :
    Confined m (.inFrame frame t) := by
  intro hpos hlands
  have inside := h hpos hlands
  show m.Leaves (t.trace (m.inside frame)) (Run.last (Run.inFrame frame t.run m))
  cases hrun : t.run (m.inside frame) with
  | ok a m' =>
    rw [hrun] at inside
    rw [Run.inFrame_ok hrun]
    exact ⟨inside.nextId_le, inside.enclosing_eq, inside.names, inside.values, inside.stays⟩
  | error interrupt m' =>
    rw [hrun] at inside
    rw [Run.inFrame_error hrun]
    exact ⟨inside.nextId_le, inside.enclosing_eq, inside.names, inside.values, inside.stays⟩

/-- A piece of code is started that declares nothing in the global frame. -/
theorem starting {code : Code}
    (hcode : ∀ t, code = .statement t → t.Stays m)
    (h : Confined m t) : Confined m (.starting code t) := by
  intro hpos hlands
  have trace : (Traced.starting code t).trace m = ⟨m, .starts code⟩ :: t.trace m := rfl
  have run : (Traced.starting code t).run m = t.run m := rfl
  rw [trace] at hlands
  rw [trace, run]
  refine (h hpos (List.forall_mem_cons.mp hlands).2).cons ?_
  intro t hstarts
  injection hstarts with hcode'
  exact hcode t hcode'

end Confined

/-! ## Binding names -/

/-- A declaration in another frame. -/
theorem define_confined (hlocal : m.current ≠ Frames.globalId) (name : String) (value : Value) :
    Confined m (Traced.define name value) :=
  fun _ _ => .define hlocal name value (List.forall_mem_singleton.mpr nofun)

/-- An assignment binds its name in another frame, or in the global one if it has no distance and the name
is bound there, or it stops. -/
theorem last_assign {id : OccurrenceId} {name : Token} {e : Expr}
    (hlands : (Code.expression (.assign id name e)).Lands m) (value : Value) :
    (∃ frame ≠ Frames.globalId,
        Run.last (Run.assign id name value m) = m.define frame name.lexeme value) ∨
      (m.distances[id]? = none ∧ (m.global? name.lexeme).isSome ∧
        Run.assign id name value m = .ok () (m.define Frames.globalId name.lexeme value)) ∨
      Run.last (Run.assign id name value m) = m := by
  cases hd : m.distances[id]? with
  | some d =>
    obtain ⟨frame, hframe, hlocal⟩ := hlands d hd
    refine .inl ⟨frame, hlocal, ?_⟩
    simp only [Run.assign, Run.get_bind, hd, Run.ancestor, bind_assoc, hframe, pure_bind]
    rfl
  | none =>
    have holder := m.frames.holder?_globalId name.lexeme
    by_cases hbound : (m.global? name.lexeme).isSome
    · refine .inr (.inl ⟨rfl, hbound, ?_⟩)
      simp only [Run.assign, Run.get_bind, hd, holder.trans (if_pos hbound)]
      rfl
    · refine .inr (.inr ?_)
      simp only [Run.assign, Run.get_bind, hd, holder.trans (if_neg hbound)]
      rfl

/-- An assignment changes no global but the one that it has the name of, and that only if it has no
distance. -/
theorem assign_leaves (hpos : Frames.globalId < m.frames.nextId) {id : OccurrenceId} {name : Token}
    {e : Expr} (hlands : (Code.expression (.assign id name e)).Lands m) (value : Value) {first : Moment}
    (hfirst : first.Stays)
    (hassigns : ∀ m', m.distances[id]? = none → Run.assign id name value m = .ok () m' →
      first.Assigns name.lexeme value) :
    m.Leaves [first] (Run.last (Run.assign id name value m)) := by
  have stays : ∀ moment ∈ [first], moment.Stays := List.forall_mem_singleton.mpr hfirst
  rcases last_assign hlands value with ⟨frame, hlocal, hlast⟩ | ⟨hd, hbound, hrun⟩ | hlast
  · rw [hlast]
    exact .define hlocal name.lexeme value stays
  · have globals := global?_define_global hpos name.lexeme value
    have assigns := hassigns _ hd hrun
    rw [hrun]
    refine ⟨Nat.le_of_eq (m.frames.nextId_define ..).symm, fun _ _ => m.frames.enclosing?_define ..,
      fun key => ?_, fun key hkey => ?_, stays⟩
    · show (Machine.global? (m.define ..) key).isSome = _
      rw [globals]
      split
      · next hname => rw [← hname, hbound, Option.isSome_some]
      · rfl
    · obtain rfl : name.lexeme = key := by
        by_contra hname
        exact hkey ((globals key).trans (if_neg hname))
      exact ⟨first, List.mem_singleton_self _, value, assigns, (globals _).trans (if_pos rfl)⟩
  · rw [hlast]
    exact (Widens.refl m).leaves hpos stays

section

variable {p : Run β} {hp : Silent p} {a : α}

theorem trace_silent_pure (m : Machine) :
    (Traced.silent p hp >>= fun _ => (pure a : Traced α)).trace m = [] := by
  show Accounts.follow p (fun _ => []) (fun _ _ => []) m = []
  unfold Accounts.follow
  cases p m <;> rfl

theorem last_silent_pure (m : Machine) :
    Run.last ((Traced.silent p hp >>= fun _ => (pure a : Traced α)).run m) = Run.last (p m) := by
  show Run.last ((p >>= fun _ => (pure a : Run α)) m) = _
  cases hrun : p m with
  | ok _ m' =>
    rw [Run.bind_ok hrun]
    rfl
  | error interrupt m' =>
    rw [Run.bind_error hrun]
    rfl

end

/-- The start of an assignment accounts for the change that it makes at its end. -/
theorem assignment_confined {fuel : Nat} {e : Expr} (h : Confined m (Traced.evaluate fuel e))
    (id : OccurrenceId) (name : Token) :
    Confined m (Traced.evaluate (fuel + 1) (.assign id name e)) := by
  intro hpos hlands
  let t := Traced.evaluate fuel e
  let first : Moment := ⟨m, .starts (.expression (.assign id name e))⟩
  have stays : first.Stays := by
    intro t hstarts
    injection hstarts with hcode
    nomatch hcode
  have spared := t.accounts.contained.spared m
  have value := h hpos
  change ∀ moment ∈ first :: Accounts.follow t.run t.trace _ m, moment.Lands at hlands
  show m.Leaves (first :: Accounts.follow t.run t.trace _ m) (Run.last ((t.run >>= _) m))
  obtain ⟨hstart, hrest⟩ := List.forall_mem_cons.mp hlands
  cases hrun : t.run m with
  | error interrupt m' =>
    rw [Accounts.follow_error hrun] at hrest
    rw [hrun] at value
    rw [Accounts.follow_error hrun, Run.bind_error hrun]
    exact (value hrest).cons stays
  | ok a m' =>
    rw [Accounts.follow_ok hrun, trace_silent_pure, List.append_nil] at hrest
    rw [hrun] at spared value
    rw [Accounts.follow_ok hrun, trace_silent_pure, List.append_nil, Run.bind_ok hrun,
      last_silent_pure]
    have spared : m.Spared m' := spared
    have evaluated : m.Leaves (t.trace m) m' := value hrest
    -- the frame that the assignment leads to is the same behind its value
    have lands : (Code.expression (.assign id name e)).Lands m' := by
      intro d hd
      obtain ⟨frame, hframe, hlocal⟩ := hstart _ rfl d (spared.distances ▸ hd)
      refine ⟨frame, ?_, hlocal⟩
      rw [spared.current]
      exact ancestor?_eq evaluated.enclosing_eq hframe
    have assigned : m'.Leaves [first] (Run.last (Run.assign id name a m')) := by
      refine assign_leaves (Nat.lt_of_lt_of_le hpos evaluated.nextId_le) lands a stays ?_
      intro m'' hd hassign
      refine ⟨id, name, e, rfl, rfl, spared.distances ▸ hd, fuel + 1, m'', ?_⟩
      rw [← Traced.evaluate_run]
      show (t.run >>= _) m = _
      rw [Run.bind_ok hrun]
      exact Run.bind_ok hassign _
    exact (evaluated.trans assigned).of_mem_iff fun moment => by simp [or_comm]

/-! ## Rules -/

section

variable {evaluate : Expr → Traced Value} {execute : Stmt → Traced Completion} {fuel : Nat}

theorem fault_confined (line : Nat) (fault : Fault) :
    Confined m (Traced.fault line fault : Traced α) :=
  .silent (.fault line fault)

theorem evaluateAll_confined (hevaluate : ∀ m e, Confined m (evaluate e)) (es : List Expr) :
    Confined m (Traced.evaluateAll evaluate es) := by
  induction es generalizing m with
  | nil => exact .pure _
  | cons first more ih =>
    refine (hevaluate m first).bind fun value m' _ _ _ => ?_
    exact (ih (m := m')).bind fun _ _ _ _ _ => .pure _

theorem executeAll_confined (hexecute : ∀ m t, t.Stays m → Confined m (execute t))
    (hlocal : m.current ≠ Frames.globalId) (body : List Stmt) :
    Confined m (Traced.executeAll execute body) := by
  induction body generalizing m with
  | nil => exact .pure _
  | cons first more ih =>
    refine (hexecute m first (.inl hlocal)).bind fun completion m' _ _ hspared => ?_
    cases completion with
    | normal => exact ih (hspared.current ▸ hlocal)
    | returned value => exact .pure _

/-- A body runs in a frame that was opened for it. -/
theorem body_confined (hexecute : ∀ m t, t.Stays m → Confined m (execute t)) {frame : FrameId}
    (hlocal : frame ≠ Frames.globalId) (body : List Stmt) :
    Confined m (.inFrame frame (Traced.executeAll execute body)) :=
  .inFrame (executeAll_confined hexecute hlocal body)

/-- A frame that is opened is not the global one. -/
theorem opened_local {p : Run FrameId} {bindings : Bindings Value} {enclosing : Option FrameId}
    {frame : FrameId} {m' : Machine} (hpos : Frames.globalId < m.frames.nextId)
    (hopen : p m = Run.newFrame bindings enclosing m) (hrun : p m = .ok frame m') :
    frame ≠ Frames.globalId := by
  injection hopen.symm.trans hrun with hframe
  exact hframe ▸ Nat.ne_of_gt hpos

theorem result_confined (closure : Closure) (completion : Completion) :
    Confined m (Traced.result closure completion) := by
  unfold Traced.result
  split
  · exact .silent (.bind (Keeping.inert.receiver? closure) fun _ => Keeping.inert.found ..)
  · cases completion <;> exact .pure _

theorem callClosure_confined (hexecute : ∀ m t, t.Stays m → Confined m (execute t))
    (closure : Closure) (arguments : List Value) :
    Confined m (Traced.callClosure execute closure arguments) := by
  intro hpos
  refine Confined.bind (.noted (by rintro _ ⟨⟩) (Keeping.inert.newFrame ..)) ?_ hpos
  intro frame m' hrun _ _
  refine (body_confined hexecute (opened_local hpos rfl hrun) closure.declaration.body).bind ?_
  exact fun completion _ _ _ _ => result_confined closure completion

theorem construct_confined (hexecute : ∀ m t, t.Stays m → Confined m (execute t)) (cls : Class)
    (arguments : List Value) : Confined m (Traced.construct execute cls arguments) := by
  refine Confined.bind (.silent (Keeping.inert.newObject cls)) fun id m' _ _ _ => ?_
  cases cls.initializer? with
  | none => exact .pure _
  | some method =>
    refine Confined.bind (.silent (Keeping.inert.bindTo ..)) fun bound m'' _ _ _ => ?_
    exact (callClosure_confined hexecute bound arguments).bind fun _ _ _ _ _ => .pure _

theorem call_confined (hexecute : ∀ m t, t.Stays m → Confined m (execute t)) (callee : Value)
    (paren : Token) (arguments : List Value) :
    Confined m (Traced.call execute callee paren arguments) := by
  unfold Traced.call
  split
  · exact fault_confined _ _
  · split
    · exact fault_confined _ _
    · cases callee with
      | function f => exact callClosure_confined hexecute f.closure arguments
      | host f => exact .silent (Run.callHost_keeping paren f arguments)
      | cls c => exact construct_confined hexecute c arguments
      | _ => exact fault_confined _ _

theorem evaluateRule_confined (hevaluate : ∀ m e, Confined m (Traced.evaluate fuel e))
    (hexecute : ∀ m t, t.Stays m → Confined m (Traced.execute fuel t)) (e : Expr) :
    Confined m (Traced.evaluate (fuel + 1) e) := by
  by_cases hassign : ∃ id name value, e = .assign id name value
  · obtain ⟨id, name, value, rfl⟩ := hassign
    exact assignment_confined (hevaluate m value) id name
  · refine Confined.starting nofun ?_
    cases e with
    | literal value => exact .pure _
    | grouping inner => exact hevaluate m inner
    | unary operator operand =>
      exact (hevaluate m operand).bind fun _ _ _ _ _ => .silent (Keeping.inert.unary ..)
    | binary left operator right =>
      refine (hevaluate m left).bind fun _ m' _ _ _ => ?_
      exact (hevaluate m' right).bind fun _ _ _ _ _ => .silent (Keeping.inert.binary ..)
    | logical left operator right =>
      refine (hevaluate m left).bind fun a m' _ _ _ => ?_
      split
      · exact .pure _
      · exact hevaluate m' right
    | var id name | this id name => exact .of_widens ((Keeping.inert.lookUp id name).keeps m) nofun
    | assign id name value => exact absurd ⟨id, name, value, rfl⟩ hassign
    | call callee paren arguments =>
      refine (hevaluate m callee).bind fun f m' _ _ _ => ?_
      refine (evaluateAll_confined hevaluate arguments).bind fun values m'' _ _ _ => ?_
      exact call_confined hexecute f paren values
    | get object name =>
      refine (hevaluate m object).bind fun v m' _ _ _ => ?_
      cases v with
      | object id => exact .silent (Keeping.inert.getProperty id name)
      | _ => exact fault_confined _ _
    | set object name value =>
      refine (hevaluate m object).bind fun v m' _ _ _ => ?_
      cases v with
      | object id =>
        refine (hevaluate m' value).bind fun a m'' _ _ _ => ?_
        have written : Confined m'' (Traced.setProperty id name a) :=
          .noted (by rintro _ ⟨⟩) (Keeping.inert.setProperty id name a)
        exact written.bind fun _ _ _ _ _ => .pure _
      | _ => exact fault_confined _ _

theorem evaluateOptional_confined (hevaluate : ∀ m e, Confined m (evaluate e)) (value : Option Expr) :
    Confined m (Traced.evaluateOptional evaluate value) := by
  cases value with
  | none => exact .pure _
  | some e => exact hevaluate m e

theorem makeFunction_confined (declaration : FunctionDecl) :
    Confined m (Traced.makeFunction declaration) :=
  .silent (.get fun _ => Keeping.inert.newFunction _)

theorem makeClass_confined (name : Token) (methods : List FunctionDecl) :
    Confined m (Traced.makeClass name methods) :=
  .silent (.get fun _ => .bind Keeping.inert.freshIdentity fun _ => .pure _)

/-- A value is made, and a name bound to it in the frame of a scope. -/
theorem declaration_confined {t : Traced Value} (h : Confined m t)
    (hlocal : m.current ≠ Frames.globalId) (name : String) :
    Confined m (do Traced.define name (← t); return Completion.normal) := by
  refine h.bind fun value m' _ _ hspared => ?_
  exact (define_confined (hspared.current ▸ hlocal) name value).bind fun _ _ _ _ _ => .pure _

/-- Only in the frame of a scope is a statement carried out that declares something. -/
theorem Stmt.Stays.local {t : Stmt} (h : t.Stays m) (hdeclared : t.declared?.isSome) :
    m.current ≠ Frames.globalId := by
  rcases h with hlocal | ⟨hnone, -⟩
  · exact hlocal
  · rw [hnone] at hdeclared
    nomatch hdeclared

/-- What declares nothing itself may be carried out wherever the statement around it is. -/
theorem Stmt.Stays.part {t part : Stmt} (h : t.Stays m) (hspared : m.Spared m')
    (hpart : t.WellNamed → part.declared? = none ∧ part.WellNamed) : part.Stays m' :=
  h.imp (fun hlocal => hspared.current ▸ hlocal) fun ⟨_, hnamed⟩ => hpart hnamed

theorem print_confined (value : Value) : Confined m (Traced.print value) := by
  have text : Confined m (.silent (do return value.text (← get).heap)
      (.get (fun _ => .pure _) fun _ _ => rfl) : Traced String) :=
    .silent (.get fun _ => .pure _)
  refine text.bind fun text _ _ _ _ => ?_
  refine (Confined.write text).bind fun _ _ _ _ _ => ?_
  exact (Confined.write "\n").bind fun _ _ _ _ _ => .pure _

theorem executeRule_confined (hevaluate : ∀ m e, Confined m (evaluate e))
    (hexecute : ∀ m t, t.Stays m → Confined m (execute t)) {t : Stmt} (ht : t.Stays m) :
    Confined m (Traced.executeRule evaluate execute t) := by
  cases t with
  | expression value => exact (hevaluate m value).bind fun _ _ _ _ _ => .pure _
  | print value => exact (hevaluate m value).bind fun a _ _ _ _ => print_confined a
  | varDecl name initializer =>
    exact declaration_confined (evaluateOptional_confined hevaluate initializer) (ht.local rfl) name.lexeme
  | block body =>
    intro hpos
    have opened : Confined m Traced.openBlock := .silent (.get fun _ => Keeping.inert.newFrame ..)
    refine opened.bind (fun frame m' hrun _ _ => ?_) hpos
    exact body_confined hexecute (opened_local hpos rfl hrun) body
  | ifThen condition thenBranch =>
    refine (hevaluate m condition).bind fun a m' _ _ hspared => ?_
    split
    · exact hexecute m' thenBranch (ht.part hspared fun h => h)
    · exact .pure _
  | ifElse condition thenBranch elseBranch =>
    refine (hevaluate m condition).bind fun a m' _ _ hspared => ?_
    split
    · exact hexecute m' thenBranch (ht.part hspared fun h => h.1)
    · exact hexecute m' elseBranch (ht.part hspared fun h => h.2)
  | whileLoop condition body =>
    refine (hevaluate m condition).bind fun a m' _ _ hspared => ?_
    split
    · refine (hexecute m' body (ht.part hspared fun h => h)).bind fun completion m'' _ _ hspared' => ?_
      cases completion with
      | normal => exact hexecute m'' _ (ht.part (hspared.trans hspared') fun h => ⟨rfl, h⟩)
      | returned value => exact .pure _
    · exact .pure _
  | funDecl declaration =>
    exact declaration_confined (makeFunction_confined declaration) (ht.local rfl) declaration.name.lexeme
  | returns keyword value =>
    exact (evaluateOptional_confined hevaluate value).bind fun _ _ _ _ _ => .pure _
  | classDecl name methods =>
    exact declaration_confined (makeClass_confined name methods) (ht.local rfl) name.lexeme

end

mutual

/-- Expressions leave the globals, wherever they are evaluated. -/
theorem evaluate_confined : ∀ fuel m e, Confined m (Traced.evaluate fuel e)
  | 0, m, _ => .of_widens (.refl m) nofun
  | fuel + 1, _, e => evaluateRule_confined (evaluate_confined fuel) (execute_confined fuel) e

/-- Statements leave the globals, unless they declare something outside of all scopes. -/
theorem execute_confined : ∀ fuel m t, t.Stays m → Confined m (Traced.execute fuel t)
  | 0, m, _, _ => .of_widens (.refl m) nofun
  | fuel + 1, m, t, ht => by
    refine Confined.starting ?_ (executeRule_confined (evaluate_confined fuel) (execute_confined fuel) ht)
    rintro _ ⟨⟩
    exact ht

end

end Lox
