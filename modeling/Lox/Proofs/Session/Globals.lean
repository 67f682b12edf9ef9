import Lox.Proofs.Session.Paths
import Lox.Proofs.Trace.Globals

/-!
# Only what is declared outside becomes a global

The statements of a program are carried out one after the other in the global frame. A declaration that
comes to its end binds its name there; all that is run besides leaves the globals (`Machine.Gains`). So,
whatever a session is asked for, the global names afterwards are those before and those of the declarations
outside of all scopes that came to their end, and a global stands for something else only if it was declared
by one of them, or assigned to without a distance (`globals_confined`).
-/

namespace Lox

open Machine

variable {m m' m'' : Machine} {trace trace' : List Moment}

/-- The statements of a program that come to their end. -/
def Run.completed (fuel : Nat) : List Stmt → Machine → List Stmt
  | [], _ => []
  | first :: more, m =>
    match execute fuel first m with
    | .ok _ m' => first :: completed fuel more m'
    | .error _ _ => []

namespace Moment

/-- A declaration is started outside of all scopes. -/
def Declares (moment : Moment) (t : Stmt) : Prop :=
  moment.happening = .starts (.statement t) ∧ t.declared?.isSome ∧
    moment.machine.current = Frames.globalId

/-- A declaration of a name is started outside of all scopes, and comes to its end with a value for it. -/
def Binds (moment : Moment) (name : String) (value : Value) : Prop :=
  ∃ t token, moment.Declares t ∧ t.declared? = some token ∧ token.lexeme = name ∧
    ∃ fuel m', Run.execute fuel t moment.machine = .ok .normal m' ∧ m'.global? name = some value

end Moment

/-! ## Runs that declare globals -/

/-- The declared names are bound in the global frame, and no other name besides those that were. A name
stands for the same, or for what the trace declares it as, or assigns to it without a distance. Nothing is
declared in the global frame but by statements of the program. -/
structure Machine.Gains (m : Machine) (program : List Stmt) (declared : List String)
    (trace : List Moment) (m' : Machine) : Prop where
  nextId_le : m.frames.nextId ≤ m'.frames.nextId
  names : ∀ name, (m'.global? name).isSome ↔ (m.global? name).isSome ∨ name ∈ declared
  values : ∀ name, m'.global? name ≠ m.global? name → ∃ moment ∈ trace, ∃ value,
    (moment.Binds name value ∨ moment.Assigns name value) ∧ m'.global? name = some value
  starts : ∀ moment ∈ trace, moment.Stays ∨ ∃ t ∈ program, moment.Declares t

namespace Machine

variable {program program' : List Stmt} {declared declared' : List String}

theorem Leaves.gains (h : m.Leaves trace m') (program : List Stmt) : m.Gains program [] trace m' where
  nextId_le := h.nextId_le
  names name := by simp [h.names name]
  values name hname := by
    obtain ⟨moment, hmem, value, hassigns, hvalue⟩ := h.values name hname
    exact ⟨moment, hmem, value, .inr hassigns, hvalue⟩
  starts moment hmoment := .inl (h.stays moment hmoment)

theorem Gains.trans (h : m.Gains program declared trace m')
    (h' : m'.Gains program' declared' trace' m'') :
    m.Gains (program ++ program') (declared ++ declared') (trace ++ trace') m'' where
  nextId_le := Nat.le_trans h.nextId_le h'.nextId_le
  names name := by rw [h'.names, h.names, List.mem_append, or_assoc]
  values name hname := by
    by_cases hsecond : m''.global? name = m'.global? name
    · rw [hsecond] at hname ⊢
      obtain ⟨moment, hmem, hends⟩ := h.values name hname
      exact ⟨moment, List.mem_append_left _ hmem, hends⟩
    · obtain ⟨moment, hmem, hends⟩ := h'.values name hsecond
      exact ⟨moment, List.mem_append_right _ hmem, hends⟩
  starts := by
    refine List.forall_mem_append.mpr ⟨fun moment hmoment => ?_, fun moment hmoment => ?_⟩
    · exact (h.starts moment hmoment).imp_right fun ⟨t, ht, hdeclares⟩ =>
        ⟨t, List.mem_append_left _ ht, hdeclares⟩
    · exact (h'.starts moment hmoment).imp_right fun ⟨t, ht, hdeclares⟩ =>
        ⟨t, List.mem_append_right _ ht, hdeclares⟩

/-- A name that is bound in the global frame is bound there, and no other name is touched. -/
theorem define_globals (hpos : Frames.globalId < m.frames.nextId) (name : String) (value : Value) :
    (∀ key, ((m.define Frames.globalId name value).global? key).isSome ↔
        (m.global? key).isSome ∨ key ∈ [name]) ∧
      ∀ key, (m.define Frames.globalId name value).global? key ≠ m.global? key → key = name := by
  have globals := global?_define_global hpos name value
  refine ⟨fun key => ?_, fun key hkey => ?_⟩
  · rw [globals, List.mem_singleton]
    split
    · next hname => simp [hname]
    · next hname => simp [Ne.symm hname]
  · by_contra hname
    exact hkey ((globals key).trans (if_neg (Ne.symm hname)))

/-- A declaration comes to its end behind all that happens in it. -/
theorem Leaves.define_gains (h : m.Leaves trace m') (hpos : Frames.globalId < m'.frames.nextId)
    {t : Stmt} {name : Token} {value : Value} {first : Moment} (hdeclares : first.Declares t)
    (hbinds : first.Binds name.lexeme value) :
    m.Gains [t] [name.lexeme] (first :: trace) (m'.define Frames.globalId name.lexeme value) := by
  obtain ⟨names, values⟩ := define_globals hpos name.lexeme value
  refine ⟨?_, fun key => ?_, fun key hkey => ?_, ?_⟩
  · exact Nat.le_trans h.nextId_le (Nat.le_of_eq (m'.frames.nextId_define ..).symm)
  · rw [names, h.names]
  · by_cases hbehind : (m'.define Frames.globalId name.lexeme value).global? key = m'.global? key
    · rw [hbehind] at hkey ⊢
      obtain ⟨moment, hmem, kept, hassigns, hvalue⟩ := h.values key hkey
      exact ⟨moment, List.mem_cons_of_mem _ hmem, kept, .inr hassigns, hvalue⟩
    · obtain rfl := values key hbehind
      exact ⟨first, List.mem_cons_self, value, .inl hbinds,
        (global?_define_global hpos _ value _).trans (if_pos rfl)⟩
  · refine List.forall_mem_cons.mpr ⟨.inr ⟨t, List.mem_singleton_self t, hdeclares⟩, ?_⟩
    exact fun moment hmoment => .inl (h.stays moment hmoment)

/-- A declaration that does not come to its end gains nothing. -/
theorem Leaves.stopped_gains (h : m.Leaves trace m') {t : Stmt} {first : Moment}
    (hdeclares : first.Declares t) : m.Gains [t] [] (first :: trace) m' where
  nextId_le := h.nextId_le
  names name := by simp [h.names name]
  values name hname := by
    obtain ⟨moment, hmem, value, hassigns, hvalue⟩ := h.values name hname
    exact ⟨moment, List.mem_cons_of_mem _ hmem, value, .inr hassigns, hvalue⟩
  starts := by
    refine List.forall_mem_cons.mpr ⟨.inr ⟨t, List.mem_singleton_self t, hdeclares⟩, ?_⟩
    exact fun moment hmoment => .inl (h.stays moment hmoment)

end Machine

/-! ## Programs -/

section

variable {fuel : Nat} {t : Stmt} {completion : Completion} {interrupt : Interrupt}

theorem completed_ok (h : (Traced.execute fuel t).run m = .ok completion m') (more : List Stmt) :
    Run.completed fuel (t :: more) m = t :: Run.completed fuel more m' := by
  rw [Traced.execute_run] at h
  simp only [Run.completed, h]

theorem completed_error (h : (Traced.execute fuel t).run m = .error interrupt m') (more : List Stmt) :
    Run.completed fuel (t :: more) m = [] := by
  rw [Traced.execute_run] at h
  simp only [Run.completed, h]

theorem declaredBy_cons (t : Stmt) (more : List Stmt) :
    declaredBy (t :: more) = declaredBy [t] ++ declaredBy more := by
  simp only [declaredBy, ← List.map_append, ← List.filterMap_append, List.singleton_append]

/-- A value is made, and a name bound to it in the global frame. -/
theorem declaration_gains {v : Traced Value} (hv : Confined m v) {name : Token}
    (ht : t.declared? = some name) (hcurrent : m.current = Frames.globalId)
    (hpos : Frames.globalId < m.frames.nextId)
    (hcode : Traced.execute (fuel + 1) t = .starting (.statement t) do
      Traced.define name.lexeme (← v)
      return .normal)
    (hlands : ∀ moment ∈ (Traced.execute (fuel + 1) t).trace m, moment.Lands) :
    m.Gains [t] (declaredBy (Run.completed (fuel + 1) [t] m)) ((Traced.execute (fuel + 1) t).trace m)
      (Run.last ((Traced.execute (fuel + 1) t).run m)) := by
  let first : Moment := ⟨m, .starts (.statement t)⟩
  let bind (a : Value) : Traced Completion := do
    Traced.define name.lexeme a
    return .normal
  have declares : first.Declares t := ⟨rfl, by rw [ht]; rfl, hcurrent⟩
  have names : declaredBy [t] = [name.lexeme] := by simp [declaredBy, ht]
  have trace : (Traced.execute (fuel + 1) t).trace m =
      first :: Accounts.follow v.run v.trace (fun a => (bind a).trace) m := by
    rw [hcode]
    rfl
  have run : (Traced.execute (fuel + 1) t).run m = (v.run >>= fun a => (bind a).run) m := by
    rw [hcode]
    rfl
  have spared := v.accounts.contained.spared m
  have value := hv hpos
  rw [trace] at hlands ⊢
  obtain ⟨-, hrest⟩ := List.forall_mem_cons.mp hlands
  cases hrun : v.run m with
  | error interrupt m' =>
    rw [Run.bind_error hrun] at run
    rw [Accounts.follow_error hrun] at hrest ⊢
    rw [hrun] at value
    rw [run, completed_error run]
    exact Leaves.stopped_gains (value hrest) declares
  | ok a m' =>
    rw [Run.bind_ok hrun] at run
    rw [Accounts.follow_ok hrun] at hrest ⊢
    rw [hrun] at spared value
    obtain ⟨hvalue, -⟩ := List.forall_mem_append.mp hrest
    have evaluated : m.Leaves (v.trace m) m' := value hvalue
    have current : m'.current = Frames.globalId := spared.current.trans hcurrent
    have hpos' := Nat.lt_of_lt_of_le hpos evaluated.nextId_le
    have bound : (bind a).run m' = .ok .normal (m'.define Frames.globalId name.lexeme a) := by
      rw [← current]
      rfl
    rw [bound] at run
    have binds : first.Binds name.lexeme a := by
      refine ⟨t, name, declares, ht, rfl, fuel + 1, _, (Traced.execute_run .. ▸ run), ?_⟩
      exact (global?_define_global hpos' name.lexeme a _).trans (if_pos rfl)
    -- that the name is declared is the last that happens
    have quiet : m.Leaves (v.trace m ++ (bind a).trace m') m' :=
      evaluated.trans ((Widens.refl m').leaves hpos' (List.forall_mem_singleton.mpr nofun))
    rw [run, completed_ok run, declaredBy_cons, names]
    exact quiet.define_gains hpos' declares binds

/-- A statement outside of all scopes gains the name that it declares, if it comes to its end. -/
theorem statement_gains (fuel : Nat) (hnamed : t.WellNamed) (hcurrent : m.current = Frames.globalId)
    (hpos : Frames.globalId < m.frames.nextId)
    (hlands : ∀ moment ∈ (Traced.execute fuel t).trace m, moment.Lands) :
    m.Gains [t] (declaredBy (Run.completed fuel [t] m)) ((Traced.execute fuel t).trace m)
      (Run.last ((Traced.execute fuel t).run m)) := by
  cases hdeclared : t.declared? with
  | none =>
    have leaves := execute_confined fuel m t (.inr ⟨hdeclared, hnamed⟩) hpos hlands
    have names : declaredBy (Run.completed fuel [t] m) = [] := by
      cases hrun : (Traced.execute fuel t).run m with
      | ok completion m' =>
        rw [completed_ok hrun]
        simp [declaredBy, hdeclared, Run.completed]
      | error interrupt m' =>
        rw [completed_error hrun]
        rfl
    rw [names]
    exact leaves.gains [t]
  | some name =>
    cases fuel with
    | zero => exact ((Widens.refl m).leaves_nil hpos).gains [t]
    | succ fuel =>
      -- all three forms of declarations make a value first, and then bind the name to it
      cases t with
      | varDecl name' initializer =>
        have made := evaluateOptional_confined (m := m) (evaluate_confined fuel) initializer
        exact declaration_gains made rfl hcurrent hpos rfl hlands
      | funDecl declaration =>
        exact declaration_gains (makeFunction_confined declaration) rfl hcurrent hpos rfl hlands
      | classDecl name' methods =>
        exact declaration_gains (makeClass_confined name' methods) rfl hcurrent hpos rfl hlands
      | _ => nomatch hdeclared

/-- A program gains the names of its declarations that come to their end. -/
theorem program_gains (fuel : Nat) {program : List Stmt} (hnamed : ∀ t ∈ program, t.WellNamed)
    (hcurrent : m.current = Frames.globalId) (hpos : Frames.globalId < m.frames.nextId)
    (hlands : ∀ moment ∈ (Traced.executeProgram fuel program).trace m, moment.Lands) :
    m.Gains program (declaredBy (Run.completed fuel program m))
      ((Traced.executeProgram fuel program).trace m)
      (Run.last ((Traced.executeProgram fuel program).run m)) := by
  induction program generalizing m with
  | nil => exact ((Widens.refl m).leaves_nil hpos).gains []
  | cons first more ih =>
    obtain ⟨hfirst, hmore⟩ := List.forall_mem_cons.mp hnamed
    have trace : (Traced.executeProgram fuel (first :: more)).trace m =
        Accounts.follow (Traced.execute fuel first).run (Traced.execute fuel first).trace
          (fun _ => (Traced.executeProgram fuel more).trace) m := rfl
    have run : (Traced.executeProgram fuel (first :: more)).run m =
        ((Traced.execute fuel first).run >>= fun _ => (Traced.executeProgram fuel more).run) m := rfl
    rw [trace] at hlands ⊢
    rw [run]
    have starts := fun moment hmoment => hlands moment (List.mem_append_left _ hmoment)
    have gains := statement_gains fuel hfirst hcurrent hpos starts
    have spared := (Traced.execute fuel first).accounts.contained.spared m
    cases hrun : (Traced.execute fuel first).run m with
    | ok completion m' =>
      rw [hrun] at spared gains
      rw [completed_ok hrun] at gains
      rw [Accounts.follow_ok hrun] at hlands ⊢
      rw [Run.bind_ok hrun, completed_ok hrun, declaredBy_cons]
      have current : m'.current = Frames.globalId := Eq.trans spared.current hcurrent
      have rest := ih hmore current (Nat.lt_of_lt_of_le hpos gains.nextId_le)
        (List.forall_mem_append.mp hlands).2
      exact gains.trans rest
    | error interrupt m' =>
      rw [hrun] at gains
      rw [completed_error hrun] at gains
      rw [Accounts.follow_error hrun, Run.bind_error hrun, completed_error hrun]
      have rest := (Widens.refl m').leaves_nil (Nat.lt_of_lt_of_le hpos gains.nextId_le)
      have stopped := gains.trans (rest.gains more)
      rwa [List.append_nil, List.append_nil] at stopped

end

/-! ## Requests one by one -/

/-- The names of the declarations of a request that come to their end outside of all scopes. A function of
the host gets its name when it is offered. -/
def Session.declared (session : Session) : Request → List String
  | .run fuel source =>
    match (checkProgram session.nextId source).result with
    | .ok (program, distances) =>
      declaredBy (Run.completed fuel program (session.idle.adopt distances))
    | .error _ => []
  | .offer offered => [offered.name]
  | .evaluate .. | .input _ => []

/-- The statements of the program that a request runs. -/
def Session.program (session : Session) : Request → List Stmt
  | .run _ source =>
    match (checkProgram session.nextId source).result with
    | .ok (program, _) => program
    | .error _ => []
  | .evaluate .. | .offer _ | .input _ => []

/-- The names that the host binds. -/
def Request.offers : Request → List String
  | .offer offered => [offered.name]
  | .run .. | .evaluate .. | .input _ => []

/-- All statements of a program that is run are well named. -/
theorem program_wellNamed (session : Session) (request : Request) :
    ∀ t ∈ session.program request, t.WellNamed := by
  cases request with
  | run fuel source =>
    simp only [Session.program]
    cases hresult : (checkProgram session.nextId source).result with
    | error diagnostics => exact nofun
    | ok unit =>
      obtain ⟨-, hparsed, -⟩ := check_ok hresult
      have named := wellNamed_of_declarations (parseProgram_eq_ok.mp hparsed) (spelled_takeWhile source)
      exact fun _ => named.of_mem
  | evaluate fuel source | offer offered | input bytes => exact nofun

section

variable {α β : Type} {session : Session} {checked : Checked α}

/-- What the machine gains in a unit, the session does. -/
theorem perform_gains {back : Machine → FrameId} {traced : α → Traced β} {action : α → Run β}
    (htracks : Tracks back traced action) {program : List Stmt} {declared : List String} {tree : α}
    {distances : Distances} (hresult : checked.result = .ok (tree, distances))
    (h : (session.idle.adopt distances).Gains program declared
      ((traced tree).trace (session.idle.adopt distances))
      (Run.last ((traced tree).run (session.idle.adopt distances)))) :
    session.machine.Gains program declared (checked.moments traced session.idle)
      (session.perform checked action).2.machine := by
  have moments : checked.moments traced session.idle =
      (traced tree).trace (session.idle.adopt distances) := by simp only [Checked.moments, hresult]
  rw [moments, perform_settles htracks hresult]
  cases hrun : (traced tree).run (session.idle.adopt distances) with
  | ok b m =>
    rw [hrun] at h
    exact ⟨h.nextId_le, h.names, h.values, h.starts⟩
  | error interrupt m =>
    rw [hrun] at h
    exact ⟨h.nextId_le, h.names, h.values, h.starts⟩

/-- A rejected unit gains nothing. -/
theorem rejected_gains {traced : α → Traced β} {action : α → Run β} {diagnostics : List Diagnostic}
    (hpos : Frames.globalId < session.machine.frames.nextId)
    (hresult : checked.result = .error diagnostics) :
    session.machine.Gains [] [] (checked.moments traced session.idle)
      (session.perform checked action).2.machine := by
  have moments : checked.moments traced session.idle = [] := by simp only [Checked.moments, hresult]
  rw [moments, perform_rejected hresult]
  have same : session.machine.Widens session.idle := .of_frames_eq rfl
  exact (same.leaves_nil hpos).gains []

/-- A unit gains the names that it declares. -/
theorem handle_gains {h : History} (hcurrent : h.session.machine.current = Frames.globalId)
    (hpos : Frames.globalId < h.session.machine.frames.nextId) {request : Request}
    (hrequest : request.offers = [])
    (hlands : ∀ moment ∈ h.session.moments request, moment.Lands) :
    h.session.machine.Gains (h.session.program request) (h.session.declared request)
      (h.session.moments request) (h.handle request).session.machine := by
  cases request with
  | run fuel source =>
    have named := program_wellNamed h.session (.run fuel source)
    simp only [Session.program, Session.declared] at named ⊢
    cases hresult : (checkProgram h.session.nextId source).result with
    | error diagnostics => exact rejected_gains hpos hresult
    | ok unit =>
      obtain ⟨program, distances⟩ := unit
      rw [hresult] at named
      refine perform_gains (interpret_tracks fuel) hresult ?_
      refine program_gains fuel named hcurrent hpos fun moment hmoment => hlands moment ?_
      simpa only [Session.moments, Checked.moments, hresult] using hmoment
  | evaluate fuel source =>
    cases hresult : (checkExpression h.session.nextId source).result with
    | error diagnostics => exact rejected_gains hpos hresult
    | ok unit =>
      obtain ⟨value, distances⟩ := unit
      refine perform_gains (evaluate_tracks fuel) hresult (Leaves.gains ?_ [])
      refine evaluate_confined fuel _ value hpos fun moment hmoment => hlands moment ?_
      simpa only [Session.moments, Checked.moments, hresult] using hmoment
  | offer offered => cases hrequest
  | input bytes =>
    have same : h.session.machine.Widens (h.handle (.input bytes)).session.machine := .of_frames_eq rfl
    exact (same.leaves_nil hpos).gains []

end

/-- Code leaves the globals wherever it is run, unless it is a declaration outside of all scopes. -/
theorem Code.confined {code : Code} (hcode : ∀ t, code = .statement t → t.Stays m) (fuel : Nat) :
    Confined m (code.traced fuel) := by
  cases code with
  | expression e => exact evaluate_confined fuel m e
  | statement t => exact execute_confined fuel m t (hcode t rfl)

/-- Each piece of code that is started opens a stretch of the trace. Unless it is a declaration of the
program, which gains its own name, the globals are left in that stretch. -/
theorem Machine.Gains.stretch {promise : Code → Machine → Prop} {program : List Stmt}
    {declared : List String} (h : m.Gains program declared trace m')
    (hnamed : ∀ t ∈ program, t.WellNamed) (hunfolds : Unfolds promise trace)
    (hlands : ∀ moment ∈ trace, moment.Lands)
    (hpos : ∀ moment ∈ trace, Frames.globalId < moment.machine.frames.nextId)
    {past future : List Moment} {moment : Moment} {code : Code}
    (hsplit : trace = past ++ moment :: future) (hstarts : moment.happening = .starts code) :
    ∃ fuel rest, let stretch := (code.traced fuel).trace moment.machine
      let ended := Run.last ((code.traced fuel).run moment.machine)
      moment :: future = stretch ++ rest ∧
        (moment.machine.Leaves stretch ended ∨ ∃ t ∈ program, moment.Declares t ∧
          moment.machine.Gains [t] (declaredBy (Run.completed fuel [t] moment.machine)) stretch
            ended) := by
  have hmoment : moment ∈ trace := by simp [hsplit]
  obtain ⟨-, fuel, rest, hopens⟩ := hunfolds past moment future code hsplit hstarts
  have inside : ∀ other ∈ (code.traced fuel).trace moment.machine, other.Lands := by
    intro other hother
    refine hlands other ?_
    rw [hsplit, hopens]
    exact List.mem_append_right _ (List.mem_append_left _ hother)
  refine ⟨fuel, rest, hopens, ?_⟩
  rcases h.starts moment hmoment with hstays | ⟨t, ht, hdeclares⟩
  · refine .inl (Code.confined (fun t hcode => hstays t ?_) fuel (hpos moment hmoment) inside)
    rw [hstarts, hcode]
  · refine .inr ⟨t, ht, hdeclares, ?_⟩
    injection hstarts.symm.trans hdeclares.1 with hcode
    subst hcode
    exact statement_gains fuel (hnamed t ht) hdeclares.2.2 (hpos moment hmoment) inside

/-! ## All requests -/

private theorem checked_local_variable :
    (checkProgram 0 "var a=true;\x7bvar a=nil;a=false;\x7dprint a;").result =
      .ok ([.varDecl ⟨.identifier, "a", 1⟩ (some (.literal (.boolean true))),
        .block [.varDecl ⟨.identifier, "a", 1⟩ (some (.literal .nil)),
          .expression (.assign 1 ⟨.identifier, "a", 1⟩ (.literal (.boolean false)))],
        .print (.var 2 ⟨.identifier, "a", 1⟩)], [(1, 0)]) := by
  unfold checkProgram check tokensOf lexicalIssuesOf
  rw [itemsOf_eq_itemsWithin]
  rfl

end Lox
