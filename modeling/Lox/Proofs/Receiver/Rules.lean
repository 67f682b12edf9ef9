import Lox.Proofs.Machine.Watched
import Lox.Proofs.Receiver.Primitives

/-!
# The rules keep receivers sealed

Each rule keeps receivers sealed if what it runs inside of it does. In the frame of a call there is no
receiver, and around it is the frame of the function (`Machine.Enters`). So if the function is a bound
method, its receiver is in force there, whatever the body has run so far.

With the rules, everything that is run by them keeps receivers sealed, however deep (`evaluates_tidily`,
`executes_tidily`), and so does a program (`interpret_keeps`).
-/

namespace Lox

open Machine

variable {α : Type} {m m' : Machine}

/-! ## Evaluation of the parts -/

/-- Expressions that are bound somewhere are evaluated to what a program may see. -/
def EvaluatesTidily (evaluate : Expr → Run Value) (attended : Machine → Expr → Run Value) : Prop :=
  ∀ (m : Machine) (record : Record) (scopes : List Scope) (e : Expr), m.Tidy →
    e.Bound record scopes → Keeps m (evaluate e) (fun final => attended final e) Machine.Fine

/-- What a statement ends with is fine. -/
def Machine.Completes (m : Machine) (completion : Completion) : Prop :=
  ∀ value ∈ completion.values, m.Fine value

/-- Statements that are bound somewhere end with what a program may see. -/
def ExecutesTidily (execute : Stmt → Run Completion) (attended : Machine → Stmt → Run Completion) :
    Prop :=
  ∀ (m : Machine) (record : Record) (scopes : List Scope) (t : Stmt), m.Tidy →
    t.Bound record scopes → Keeps m (execute t) (fun final => attended final t) Machine.Completes

theorem Machine.completes_normal (m : Machine) : m.Completes .normal := nofun

theorem Machine.Fine.completes {value : Value} (h : m.Fine value) : m.Completes (.returned value) :=
  List.forall_mem_singleton.mpr h

/-- Each statement of a body is bound to the scopes that are there before it. -/
theorem Stmt.BoundAll.bound {record : Record} {scopes : List Scope} {body : List Stmt}
    (h : Stmt.BoundAll record scopes body) {t : Stmt} (ht : t ∈ body) :
    ∃ scopes', t.Bound record scopes' := by
  induction body generalizing scopes with
  | nil => nomatch ht
  | cons first more ih =>
    rcases List.mem_cons.mp ht with rfl | ht
    · exact ⟨scopes, h.1⟩
    · exact ih h.2 ht

section

variable {evaluate : Expr → Run Value} {evaluateAttended : Machine → Expr → Run Value}
variable {execute : Stmt → Run Completion} {executeAttended : Machine → Stmt → Run Completion}

/-! ## Lists of parts -/

theorem evaluateAll_keeps (h : m.Tidy) (es : List Expr)
    (hes : ∀ m', m.Reaches m' → ∀ e ∈ es,
      Keeps m' (evaluate e) (fun final => evaluateAttended final e) Machine.Fine) :
    Keeps m (Run.evaluateAll evaluate es)
      (fun final => Run.evaluateAll (evaluateAttended final) es)
      (fun m' values => ∀ value ∈ values, m'.Fine value) := by
  induction es generalizing m with
  | nil => exact .pure h fun _ h => nomatch h
  | cons first more ih =>
    refine (hes m h.reaches first List.mem_cons_self).bind ?_
    intro m' value hreach hvalue
    have hmore := ih hreach.tidy fun m'' hreach' e he =>
      hes m'' (hreach.trans hreach') e (List.mem_cons_of_mem _ he)
    refine hmore.bind ?_
    intro m'' values hreach' hvalues
    exact .pure hreach'.tidy (List.forall_mem_cons.mpr ⟨hvalue.mono hreach'.earlier, hvalues⟩)

theorem executeAll_keeps (h : m.Tidy) (body : List Stmt)
    (hbody : ∀ t ∈ body, ∀ m', m.Reaches m' →
      Keeps m' (execute t) (fun final => executeAttended final t) Machine.Completes) :
    Keeps m (Run.executeAll execute body) (fun final => Run.executeAll (executeAttended final) body)
      Machine.Completes := by
  induction body generalizing m with
  | nil => exact .pure h m.completes_normal
  | cons first more ih =>
    refine (hbody first List.mem_cons_self m h.reaches).bind ?_
    intro m' completion hreach hcompletes
    cases completion with
    | normal =>
      exact ih hreach.tidy fun t ht m'' hreach' =>
        hbody t (List.mem_cons_of_mem _ ht) m'' (hreach.trans hreach')
    | returned value => exact .pure hreach.tidy hcompletes

/-- A body runs in another frame. -/
theorem body_keeps (h : m.Tidy) {frame : FrameId} (hlt : frame < m.frames.nextId)
    (hfull : ¬m.HoldsWeakly frame) (body : List Stmt)
    (hbody : ∀ t ∈ body, ∀ m', m.Earlier m' → (m.inside frame).Reaches m' →
      Keeps m' (execute t) (fun final => executeAttended final t) Machine.Completes) :
    Keeps m (Run.inFrame frame (Run.executeAll execute body))
      (fun final => Run.inFrame frame (Run.executeAll (executeAttended final) body))
      Machine.Completes := by
  refine Keeps.inFrame h hlt hfull (fun hthere hentered => ?_) ?_
  · exact executeAll_keeps hentered body fun t ht m' hreach =>
      hbody t ht m' (hthere.trans hreach.earlier) hreach
  · exact fun m' completion current hback hcompletes value hvalue =>
      (hcompletes value hvalue).mono hback

/-! ## Calls -/

/-- A machine in the frame of a call of a function, which holds no receiver. -/
structure Machine.Enters (m : Machine) (closure : Closure) (m' : Machine) : Prop where
  earlier : m.Earlier m'
  tidy : m'.Tidy
  inner : m'.current ≠ Frames.globalId
  enclosing : m'.frames.enclosing? m'.current = some closure.frame
  free : ∀ value, m'.frames.local? m'.current receiverName = some value → value.objectId? = none

/-- In a call of a bound method its receiver is in force. -/
theorem Machine.Enters.inCallOf {f : Function} (h : m.Enters f.closure m')
    (hfull : m.ClosureInFull f.closure) {final : Machine} (hfinal : m'.Earlier final)
    {method : Closure} {owner : ObjectId} (hbinds : final.Binds method owner (.function f)) :
    m'.InCallOf method owner := by
  have full := h.earlier.closureInFull hfull
  obtain ⟨-, henclosing, receiver, hlocal, howner⟩ := hbinds.earlier hfinal full.there
  refine ⟨.outer h.inner h.free h.enclosing (.own ?_), ?_⟩
  · cases receiver with
    | object id =>
      injection howner with howner
      rw [hlocal, howner]
    | weakObject id => exact absurd ⟨id, hlocal⟩ full.full
    | _ => nomatch howner
  · rw [Frames.ancestor?, h.enclosing, Option.bind_some, Frames.ancestor?, henclosing]
    rfl

theorem Machine.Reaches.enters {closure : Closure} (hentered : m.Enters closure m') {m'' : Machine}
    (h : m'.Reaches m'') : m.Enters closure m'' where
  earlier := hentered.earlier.trans h.earlier
  tidy := h.tidy
  inner := h.current ▸ hentered.inner
  enclosing := by
    rw [h.current, h.earlier.enclosing_eq _ hentered.tidy.current_lt]
    exact hentered.enclosing
  free value hvalue := by
    rw [h.current] at hvalue
    by_contra hobject
    have isSome := Option.isSome_iff_ne_none.mpr hobject
    have held := (h.earlier.receiver_iff _ hentered.tidy.current_lt value isSome).mp hvalue
    exact hobject (hentered.free value held)

/-- A call runs the body of a function in a frame with the arguments. An initializer gives its
receiver. -/
theorem callClosure_keeps (h : m.Tidy) {closure : Closure} (hfull : m.ClosureInFull closure)
    (hbound : closure.declaration.IsBound) {arguments : List Value}
    (harguments : ∀ a ∈ arguments, m.Fine a)
    (hexecute : ∀ t ∈ closure.declaration.body, ∀ m', m.Enters closure m' →
      Keeps m' (execute t) (fun final => executeAttended final t) Machine.Completes) :
    Keeps m (Run.callClosure execute closure arguments)
      (fun final => Run.callClosure (executeAttended final) closure arguments)
      (fun m' value => m'.Fine value ∧ (closure.isInitializer → ∀ id,
        m.frames.local? closure.frame receiverName = some (.object id) → value = .object id)) := by
  obtain ⟨⟨name, params, body⟩, frame, isInitializer⟩ := closure
  obtain ⟨record, scopes, hfree, hbody⟩ := hbound
  let bindings := Bindings.empty.insertAll ((params.map (·.lexeme)).zip arguments)
  have values : ∀ key value, bindings.find? key = some value → m.Fine value := by
    intro key value hvalue
    exact harguments value (mem_of_find?_zip hvalue).2
  have free : ∀ value, bindings.find? receiverName ≠ some value := by
    intro value hvalue
    obtain ⟨param, hparam, hlexeme⟩ := List.mem_map.mp (mem_of_find?_zip hvalue).1
    exact hfree param hparam hlexeme
  have opened := newFrame_alone h bindings (some frame)
    (fun key value hvalue => .inl (values key value hvalue)) (by
      rintro _ ⟨⟩
      exact ⟨hfull.there, hfull.full⟩)
  refine Keeps.bind opened ?_
  rintro m' _ hreach ⟨rfl, rfl⟩
  -- the new frame encloses nothing yet, and holds the arguments only
  have own (key : String) :
      (m.push bindings (some frame)).frames.local? m.frames.nextId key = bindings.find? key := by
    rw [Machine.push, Frames.local?_push, if_pos rfl]
  have there : m.frames.nextId < (m.push bindings (some frame)).frames.nextId :=
    m.frames.lt_nextId_push bindings (some frame)
  have full : ¬(m.push bindings (some frame)).HoldsWeakly m.frames.nextId := by
    rintro ⟨id, hid⟩
    rw [own] at hid
    exact free _ hid
  refine (body_keeps hreach.tidy there full body ?_).bind ?_
  · intro t ht m' hearlier hreach'
    apply hexecute t ht
    have entered : m.Enters ⟨⟨name, params, body⟩, frame, isInitializer⟩
        ((m.push bindings (some frame)).inside m.frames.nextId) := by
      refine ⟨?_, (hreach.tidy.inside there full).2, Nat.ne_of_gt h.nextId_pos, ?_, ?_⟩
      · exact hreach.earlier.trans (.of_frames_eq rfl (Nat.le_refl _))
      · show Frames.enclosing? (Frames.push ..) m.frames.nextId = _
        rw [Frames.enclosing?_push, if_pos rfl]
      · intro value hvalue
        exact absurd ((own _).symm.trans hvalue) (free value)
    exact hreach'.enters entered
  · intro m' completion hreach' hcompletes
    split
    · refine .get (Keeps.mono (found_alone hreach'.tidy _ ?_) ?_)
      · intro value hvalue
        have still := (hreach.trans hreach').earlier.closureInFull hfull
        exact hreach'.tidy.fine still.full hvalue
      · rintro m'' value - ⟨hfine, hfound⟩
        refine ⟨hfine, fun _ id hid => ?_⟩
        have held := ((hreach.trans hreach').earlier.receiver_iff _ hfull.there _ rfl).mpr hid
        exact Option.some.inj (hfound.symm.trans held)
    · next hplain =>
      cases completion with
      | normal => exact .pure hreach'.tidy ⟨fine_of_plain trivial, fun h => absurd h hplain⟩
      | returned value =>
        exact .pure hreach'.tidy ⟨hcompletes value List.mem_cons_self, fun h => absurd h hplain⟩

/-- A new object is prepared by the initializer of its class. -/
theorem construct_keeps (h : m.Tidy) {cls : Class} (hcls : m.Fine (.cls cls))
    {arguments : List Value} (harguments : ∀ a ∈ arguments, m.Fine a)
    (hexecute : ∀ f : FunctionDecl, f.IsBound → ∀ t ∈ f.body, ∀ m', m.Earlier m' → m'.Tidy →
      Keeps m' (execute t) (fun final => executeAttended final t) Machine.Completes) :
    Keeps m (Run.construct execute cls arguments)
      (fun final => Run.construct (executeAttended final) cls arguments) Machine.Fine := by
  have there : m.heap.nextId < (m.create cls).heap.nextId := m.heap.lt_nextId_push cls
  have created : Alone m (Run.newObject cls) fun m' id => m' = m.create cls ∧ id = m.heap.nextId :=
    .of_ok rfl ⟨.create m cls, h.create hcls, rfl⟩ ⟨rfl, rfl⟩
  refine Keeps.bind created ?_
  rintro m' _ hreach ⟨rfl, rfl⟩
  cases hinit : cls.initializer? with
  | none => exact .pure hreach.tidy (fine_object there)
  | some method =>
    have full := hreach.earlier.closureInFull (hcls.full _ _ hinit)
    have bound := hcls.stands.bound _ _ hinit
    refine Keeps.bind (bindMethod_alone hreach.tidy full there) ?_
    intro m'' closure hreach' ⟨hfull, hdeclaration⟩
    have earlier := (hreach.trans hreach').earlier
    rw [← hdeclaration] at bound
    refine (callClosure_keeps hreach'.tidy hfull bound ?_ ?_).bind ?_
    · intro a ha
      exact (harguments a ha).mono earlier
    · intro t ht inner hentered
      exact hexecute _ bound t ht inner (earlier.trans hentered.earlier) hentered.tidy
    · intro m''' _ hreach'' _
      exact .pure hreach''.tidy ((fine_object there).mono (hreach'.trans hreach'').earlier)

/-- Each statement of a body that is bound keeps receivers sealed. -/
theorem ExecutesTidily.body (hexecute : ExecutesTidily execute executeAttended)
    {f : FunctionDecl} (hbound : f.IsBound) {t : Stmt} (ht : t ∈ f.body) (h : m.Tidy) :
    Keeps m (execute t) (fun final => executeAttended final t) Machine.Completes := by
  obtain ⟨name, params, body⟩ := f
  obtain ⟨record, scopes, -, hbody⟩ := hbound
  obtain ⟨scopes', hstatement⟩ := hbody.bound ht
  exact hexecute m record scopes' t h hstatement

/-- A call keeps receivers sealed, whatever is called. -/
theorem call_keeps (hexecute : ExecutesTidily execute executeAttended) (h : m.Tidy)
    {callee : Value} (hcallee : m.Fine callee) (paren : Token) {arguments : List Value}
    (harguments : ∀ a ∈ arguments, m.Fine a) :
    Keeps m (Run.call execute callee paren arguments)
      (fun final => Run.callAttended final (executeAttended final) callee paren arguments)
      Machine.Fine := by
  -- what is attended inside is only that the statements of a method run in a call of it
  let statement (final : Machine) (t : Stmt) : Run Completion :=
    Run.attend (fun m => ∀ method owner, final.Binds method owner callee →
      t ∈ method.declaration.body ∧ m.InCallOf method owner) (fun _ _ _ => True)
      (executeAttended final t)
  suffices Keeps m (Run.call execute callee paren arguments)
      (fun final => Run.call (statement final) callee paren arguments)
      fun m' value => m'.Fine value ∧ ∀ final, m'.Earlier final → ∀ method owner,
        final.Binds method owner callee → method.isInitializer → value = .object owner by
    refine (this.attend ?_ ?_).mono fun _ _ _ hvalue => hvalue.1
    · intro final hfinal
      refine ⟨h.isSealed, hfinal, ?_⟩
      exact List.forall_mem_cons.mpr ⟨hcallee.full, fun a ha => (harguments a ha).full⟩
    · intro final m' value _ hfinal hvalue
      exact hvalue.2 final hfinal
  unfold Run.call
  cases harity : callee.arity? with
  | none => exact .fault h ..
  | some arity =>
    by_cases hlength : arguments.length = arity
    · simp only [hlength, ne_eq, not_true_eq_false, if_false]
      cases callee with
      | function f =>
        have full : m.ClosureInFull f.closure := hcallee.full
        have bound : f.closure.declaration.IsBound := hcallee.stands.bound
        refine (callClosure_keeps h full bound harguments ?_).mono ?_
        · intro t ht m' hentered
          refine (hexecute.body bound ht hentered.tidy).attend ?_ fun _ _ _ _ _ _ => trivial
          intro final hfinal method owner hbinds
          have still := (hentered.earlier.closureInFull full).there
          obtain ⟨hmethod, -⟩ := hbinds.earlier hfinal still
          rw [hmethod] at ht
          exact ⟨ht, hentered.inCallOf full hfinal hbinds⟩
        · intro m' value hreach ⟨hfine, hinitializer⟩
          refine ⟨hfine, fun final hfinal method owner hbinds hinit => ?_⟩
          obtain ⟨hmethod, -, receiver, hlocal, howner⟩ :=
            hbinds.earlier (hreach.earlier.trans hfinal) full.there
          cases receiver with
          | object id =>
            injection howner with howner
            subst howner
            exact hinitializer (by rw [hmethod]; exact hinit) id hlocal
          -- a function that is called is full, so it does not hold its receiver weakly
          | weakObject id => exact absurd ⟨id, hlocal⟩ full.full
          | _ => nomatch howner
      | host f =>
        -- neither functions of the host nor classes are bound to a receiver
        refine (callHost_alone h paren f harguments).keeps.mono fun m' value _ hfine => ⟨hfine, ?_⟩
        rintro final - method owner ⟨_, _, ⟨⟩, -⟩
      | cls cls =>
        refine (construct_keeps h hcallee harguments ?_).mono fun m' value _ hfine => ⟨hfine, ?_⟩
        · intro f hbound t ht m' _ htidy
          refine (hexecute.body hbound ht htidy).attend ?_ fun _ _ _ _ _ _ => trivial
          rintro final - method owner ⟨_, _, ⟨⟩, -⟩
        · rintro final - method owner ⟨_, _, ⟨⟩, -⟩
      | _ => exact .fault h ..
    · simp only [ne_eq, hlength, not_false_eq_true, if_true]
      exact .fault h ..

/-! ## Expressions -/

theorem attendedRule_keeps (hevaluate : EvaluatesTidily evaluate evaluateAttended)
    (hexecute : ExecutesTidily execute executeAttended) :
    EvaluatesTidily (Run.evaluateRule evaluate execute)
      fun final => Run.attendedRule final (evaluateAttended final) (executeAttended final) := by
  intro m record scopes e h hbound
  have parts : ∀ part ∈ e.parts, ∀ m', m.Reaches m' →
      Keeps m' (evaluate part) (fun final => evaluateAttended final part) Machine.Fine := by
    intro part hpart m' hreach
    exact hevaluate m' record scopes part hreach.tidy (hbound.part hpart)
  cases e with
  | literal value => exact .pure h (by cases value <;> exact fine_of_plain trivial)
  | grouping inner => exact parts inner (List.mem_singleton_self _) m h.reaches
  | unary operator operand =>
    refine (parts operand (List.mem_singleton_self _) m h.reaches).bind ?_
    intro m' a hreach _
    exact unary_alone hreach.tidy operator a
  | binary left operator right =>
    refine (parts left (by simp [Expr.parts]) m h.reaches).bind ?_
    intro m' a hreach _
    refine (parts right (by simp [Expr.parts]) m' hreach).bind ?_
    intro m'' b hreach' _
    exact binary_alone hreach'.tidy operator a b
  | logical left operator right =>
    refine (parts left (by simp [Expr.parts]) m h.reaches).bind ?_
    intro m' a hreach ha
    split
    · exact .pure hreach.tidy ha
    · exact parts right (by simp [Expr.parts]) m' hreach
  | var id name => exact lookUp_alone h id name
  | this id keyword => exact lookUp_alone h id keyword
  | assign id name value =>
    have free := (hbound ⟨.assigned, id, name⟩ List.mem_cons_self).free rfl
    refine (parts value (List.mem_singleton_self _) m h.reaches).bind ?_
    intro m' a hreach ha
    refine Keeps.bind (assign_alone hreach.tidy id free ha) ?_
    intro m'' _ hreach' _
    exact .pure hreach'.tidy (ha.mono hreach'.earlier)
  | call callee paren arguments =>
    refine (parts callee List.mem_cons_self m h.reaches).bind ?_
    intro m' f hreach hf
    refine (evaluateAll_keeps hreach.tidy arguments fun m'' hreach' a ha =>
      parts a (List.mem_cons_of_mem _ ha) m'' (hreach.trans hreach')).bind ?_
    intro m'' values hreach' hvalues
    exact call_keeps hexecute hreach'.tidy (hf.mono hreach'.earlier) paren hvalues
  | get object name =>
    refine (parts object (List.mem_singleton_self _) m h.reaches).bind ?_
    intro m' a hreach _
    cases a with
    | object id =>
      refine ((getProperty_alone hreach.tidy id name).keeps.attend ?_ ?_).mono ?_
      · intros
        trivial
      · intro final m'' value _ hfinal hvalue
        exact hvalue.2 final hfinal
      · exact fun _ _ _ hvalue => hvalue.1
    | _ => exact .fault hreach.tidy ..
  | set object name value =>
    refine (parts object (by simp [Expr.parts]) m h.reaches).bind ?_
    intro m' a hreach ha
    cases a with
    | object id =>
      have there : id < m'.heap.nextId := ha.stands.there id rfl
      refine (parts value (by simp [Expr.parts]) m' hreach).bind ?_
      intro m'' b hreach' hb
      -- the value is evaluated in between, which takes no object away
      have still := Nat.lt_of_lt_of_le there hreach'.earlier.objects_le
      refine ((setProperty_alone hreach'.tidy still name hb).keeps.attend ?_ ?_).bind ?_
      · intros
        trivial
      · intro final m''' _ _ hfinal hwritten
        exact hwritten final hfinal
      · intro m''' _ hreach'' _
        exact .pure hreach''.tidy (hb.mono hreach''.earlier)
    | _ => exact .fault hreach.tidy ..

/-! ## Statements -/

theorem evaluateOptional_keeps (hevaluate : EvaluatesTidily evaluate evaluateAttended) (h : m.Tidy)
    {record : Record} {scopes : List Scope} {value : Option Expr}
    (hbound : Expr.BoundIfAny record scopes value) :
    Keeps m (Run.evaluateOptional evaluate value)
      (fun final => Run.evaluateOptional (evaluateAttended final) value) Machine.Fine := by
  cases value with
  | none => exact .pure h (fine_of_plain trivial)
  | some e => exact hevaluate m record scopes e h hbound

/-- The methods of a class are made in the current frame, where nothing runs that holds a receiver
weakly. -/
theorem fine_class (h : m.Tidy) {record : Record} {scopes : List Scope} {methods : List FunctionDecl}
    (hbound : FunctionDecl.BoundAll record scopes methods) (identity : Identity) (text : String) :
    m.Fine (.cls ⟨identity, text,
      Bindings.empty.insertAll (methods.map (Run.methodClosure m.current))⟩) := by
  refine ⟨?_, ?_, nofun⟩
  · intro key method hmethod
    obtain ⟨declaration, -, -, rfl⟩ := exists_of_find?_methods hmethod
    exact ⟨h.current_lt, h.isSealed.current⟩
  · intro key method hmethod
    obtain ⟨declaration, hdeclaration, -, rfl⟩ := exists_of_find?_methods hmethod
    exact ⟨record, scopes, bound_of_mem hbound hdeclaration⟩

theorem executeRule_keeps (hevaluate : EvaluatesTidily evaluate evaluateAttended)
    (hexecute : ExecutesTidily execute executeAttended) :
    ExecutesTidily (Run.executeRule evaluate execute)
      fun final => Run.executeRule (evaluateAttended final) (executeAttended final) := by
  intro m record scopes t h hbound
  cases t with
  | expression value =>
    refine (hevaluate m record scopes value h hbound).bind ?_
    intro m' _ hreach _
    exact .pure hreach.tidy m'.completes_normal
  | print value =>
    refine (hevaluate m record scopes value h hbound).bind ?_
    intro m' a hreach _
    refine .get (Keeps.bind (write_alone hreach.tidy _) ?_)
    intro m'' _ hreach' _
    refine Keeps.bind (write_alone hreach'.tidy _) ?_
    intro m''' _ hreach'' _
    exact .pure hreach''.tidy m'''.completes_normal
  | varDecl name initializer =>
    obtain ⟨hname, hvalue⟩ := hbound
    refine (evaluateOptional_keeps hevaluate h hvalue).bind ?_
    intro m' a hreach ha
    refine Keeps.bind (define_alone hreach.tidy hname ha) ?_
    intro m'' _ hreach' _
    exact .pure hreach'.tidy m''.completes_normal
  | block body =>
    have opened := newFrame_alone h .empty (some m.current) (by rintro name value ⟨⟩) (by
      rintro _ ⟨⟩
      exact ⟨h.current_lt, h.isSealed.current⟩)
    refine .get (Keeps.bind opened ?_)
    rintro m' _ hreach ⟨rfl, rfl⟩
    refine body_keeps hreach.tidy (m.frames.lt_nextId_push .empty _) ?_ body ?_
    -- the frame of a block is empty, so no receiver is in it
    · rintro ⟨id, hid⟩
      rw [Machine.push, Frames.local?_push, if_pos rfl] at hid
      cases hid
    · intro t ht m' _ hreach'
      obtain ⟨scopes', hstatement⟩ := hbound.bound ht
      exact hexecute m' record scopes' t hreach'.tidy hstatement
  | ifThen condition thenBranch =>
    refine (hevaluate m record scopes condition h hbound.1).bind ?_
    intro m' a hreach _
    split
    · exact hexecute m' record scopes thenBranch hreach.tidy hbound.2.2
    · exact .pure hreach.tidy m'.completes_normal
  | ifElse condition thenBranch elseBranch =>
    refine (hevaluate m record scopes condition h hbound.1).bind ?_
    intro m' a hreach _
    split
    · exact hexecute m' record scopes thenBranch hreach.tidy hbound.2.1.2
    · exact hexecute m' record scopes elseBranch hreach.tidy hbound.2.2.2
  | whileLoop condition body =>
    refine (hevaluate m record scopes condition h hbound.1).bind ?_
    intro m' a hreach _
    split
    · refine (hexecute m' record scopes body hreach.tidy hbound.2.2).bind ?_
      intro m'' completion hreach' hcompletes
      cases completion with
      | normal => exact hexecute m'' record scopes _ hreach'.tidy hbound
      | returned value => exact .pure hreach'.tidy hcompletes
    · exact .pure hreach.tidy m'.completes_normal
  | funDecl declaration =>
    obtain ⟨hname, hbody⟩ := hbound
    have made := newFunction_alone h ⟨declaration, m.current, false⟩
      ⟨h.current_lt, h.isSealed.current⟩ ⟨record, _, hbody⟩
    refine .get (Keeps.bind made ?_)
    intro m' f hreach hf
    refine Keeps.bind (define_alone hreach.tidy hname hf) ?_
    intro m'' _ hreach' _
    exact .pure hreach'.tidy m''.completes_normal
  | returns keyword value =>
    refine (evaluateOptional_keeps hevaluate h hbound).bind ?_
    intro m' a hreach ha
    exact .pure hreach.tidy ha.completes
  | classDecl name methods =>
    obtain ⟨hname, hmethods⟩ := hbound
    refine .get (Keeps.bind (freshIdentity_alone h) ?_)
    intro m' identity hreach _
    rw [← hreach.current]
    have fine := fine_class hreach.tidy hmethods identity name.lexeme
    refine Keeps.bind (define_alone hreach.tidy hname fine) ?_
    intro m'' _ hreach' _
    exact .pure hreach'.tidy m''.completes_normal

end

/-! ## Whole runs -/

/-- To attend an expression or a statement changes nothing. -/
theorem Keeps.shown {p : Run α} {q : Machine → Run α} {post : Machine → α → Prop} {shown : α → List Value}
    (hkeeps : Keeps m p q post) (h : m.Tidy)
    (hshown : ∀ m' a, post m' a → ∀ value ∈ shown a, m'.Fine value) :
    Keeps m p (fun final => Run.attend (fun m => final.Shows m [])
      (fun _ a m => final.Shows m (shown a)) (q final)) post := by
  apply hkeeps.attend
  · intro final hfinal
    exact ⟨h.isSealed, hfinal, nofun⟩
  · intro final m' a hreach hfinal ha
    exact ⟨hreach.tidy.isSealed, hfinal, fun value hvalue => (hshown m' a ha value hvalue).full⟩

mutual

/-- Expressions are evaluated to what a program may see. -/
theorem evaluates_tidily : ∀ fuel,
    EvaluatesTidily (Run.evaluate fuel) fun final => Run.evaluateAttended final fuel
  | 0 => fun _ _ _ _ h _ => .throw h _
  | fuel + 1 => by
    intro m record scopes e h hbound
    have rule := attendedRule_keeps (evaluates_tidily fuel) (executes_tidily fuel)
    apply (rule m record scopes e h hbound).shown h
    intro m' a ha
    exact List.forall_mem_singleton.mpr ha

/-- Statements end with what a program may see. -/
theorem executes_tidily : ∀ fuel,
    ExecutesTidily (Run.execute fuel) fun final => Run.executeAttended final fuel
  | 0 => fun _ _ _ _ h _ => .throw h _
  | fuel + 1 => by
    intro m record scopes t h hbound
    have rule := executeRule_keeps (evaluates_tidily fuel) (executes_tidily fuel)
    apply (rule m record scopes t h hbound).shown h
    exact fun m' completion hcompletes => hcompletes

end

namespace Run

variable {final : Machine} {fuel : Nat} {first : Stmt}

theorem interpretAttended_ok (more : List Stmt) {completion : Completion}
    (h : executeAttended final fuel first m = .ok completion m') :
    interpretAttended final fuel (first :: more) m = interpretAttended final fuel more m' := by
  simp only [interpretAttended, h]

theorem interpretAttended_error (more : List Stmt) {interrupt : Interrupt}
    (h : executeAttended final fuel first m = .error interrupt m') :
    interpretAttended final fuel (first :: more) m =
      .error interrupt { m' with current := Frames.globalId } := by
  simp only [interpretAttended, h]

end Run

/-- The statements of a program outside of all scopes keep receivers sealed. -/
theorem interpret_keeps (fuel : Nat) (program : List Stmt) (h : m.Tidy)
    (hcurrent : m.current = Frames.globalId) {record : Record} {scopes : List Scope}
    (hbound : Stmt.BoundAll record scopes program) :
    Keeps m (Run.interpret fuel program) (fun final => Run.interpretAttended final fuel program)
      fun _ _ => True := by
  induction program generalizing m scopes with
  | nil => exact .pure h trivial
  | cons first more ih =>
    obtain ⟨m', hreach, hsame, hend⟩ := executes_tidily fuel m record scopes first h hbound.1
    rcases hend with ⟨completion, hrun, -⟩ | ⟨interrupt, hrun⟩
    · obtain ⟨m'', hreach', hsame', hend'⟩ :=
        ih hreach.tidy (hreach.current.trans hcurrent) hbound.2
      have run := Run.interpret_ok more hrun
      refine ⟨m'', hreach.trans hreach', fun final hfinal => ?_, by rwa [run]⟩
      have same := hsame final (hreach'.earlier.trans hfinal)
      rw [run, ← hsame' final hfinal]
      exact Run.interpretAttended_ok more (same.trans hrun)
    · have run := Run.interpret_error more hrun
      have back : { m' with current := Frames.globalId } = m' := by
        rw [← hcurrent, ← hreach.current]
      rw [back] at run
      refine ⟨m', hreach, fun final hfinal => ?_, .inr ⟨interrupt, run⟩⟩
      have same := hsame final hfinal
      have attended := Run.interpretAttended_error more (same.trans hrun)
      rw [back] at attended
      exact attended.trans run.symm

end Lox
