import Lox.Proofs.Machine.Primitives

/-!
# The rules are safe

Each rule is safe if what it runs inside of it is. A rule for an expression needs that all occurrences
in it are bound to the scopes of the current frame, and a rule for a statement that the scope declares
what the statement does; behind the statement the current frame holds what `Stmt.after` says. A call
or a block opens a frame for its own scope, and the statements in it go on from there.
-/

namespace Lox

open Layout

variable {α : Type} {setting : Setting} {σ : Layout}

/-! ## Parts of expressions -/

theorem occurrences_subset {a : Expr} {arguments : List Expr} (h : a ∈ arguments) :
    a.occurrences ⊆ Expr.occurrencesIn arguments := by
  induction arguments with
  | nil => nomatch h
  | cons first more ih =>
    rcases List.mem_cons.mp h with rfl | h
    · exact List.subset_append_left _ _
    · exact List.subset_append_of_subset_right _ (ih h)

/-- What is bound in an expression is bound in its parts. -/
theorem Expr.Bound.part {record : Record} {scopes : List Scope} {e part : Expr}
    (h : e.Bound record scopes) (hpart : part ∈ e.parts) : part.Bound record scopes := by
  suffices part.occurrences ⊆ e.occurrences from fun o ho => h o (this ho)
  cases e with
  | literal | var | this => nomatch hpart
  | grouping | unary | get =>
    rw [List.mem_singleton.mp hpart]
    exact List.Subset.refl _
  | binary | logical | set =>
    simp only [Expr.parts, List.mem_cons, List.not_mem_nil, or_false] at hpart
    rcases hpart with rfl | rfl
    · exact List.subset_append_left _ _
    · exact List.subset_append_right _ _
  | assign =>
    rw [List.mem_singleton.mp hpart]
    exact List.subset_cons_self _ _
  | call =>
    rcases List.mem_cons.mp hpart with rfl | hpart
    · exact List.subset_append_left _ _
    · exact List.subset_append_of_subset_right _ (occurrences_subset hpart)

/-- Without a scope between them, what lies inside lies where the code itself does. -/
theorem Lies.same {units : List Code} {path : List Opener} {code inner : Code}
    (h : Lies units path code) (hinner : ([], inner) ∈ code.parts) : Lies units path inner :=
  Lies.part h hinner

theorem Lies.expression {units : List Code} {path : List Opener} {e part : Expr}
    (h : Lies units path (.expression e)) (hpart : part ∈ e.parts) :
    Lies units path (.expression part) :=
  h.same (List.mem_map.mpr ⟨part, hpart, rfl⟩)

/-! ## Evaluation of the parts -/

/-- Expressions are evaluated safely where their occurrences are bound to the current frame. -/
def Evaluates (setting : Setting) (evaluate : Expr → Run Value)
    (watched : Labels → Expr → Run Value) : Prop :=
  ∀ (σ : Layout) (path : List Opener) (scopes : List Scope) (e : Expr), σ.Good setting →
    σ.Runs σ.machine.current path scopes → e.Bound setting.record scopes →
    Lies setting.units path (.expression e) →
    Safe setting σ (evaluate e) (fun labels => watched labels e) (ValueGood setting)

/-- What a statement ends with is good. -/
def CompletionGood (setting : Setting) (σ : Layout) : Completion → Prop
  | .normal => True
  | .returned value => ValueGood setting σ value

/-- The innermost scope declares what the statement declares. -/
def Fits (path : List Opener) (t : Stmt) : Prop :=
  ∀ name ∈ t.declared?, ∀ opener ∈ path.head?, name.lexeme ∈ opener.names

/-- Behind a statement that came to its end, the current frame holds what the scopes behind it say. -/
def Behind (setting : Setting) (path : List Opener) (scopes : List Scope) (σ : Layout)
    (completion : Completion) : Prop :=
  CompletionGood setting σ completion ∧
    (completion = .normal → σ.Runs σ.machine.current path scopes)

/-- Statements are carried out safely where their occurrences are bound to the current frame. -/
def Executes (setting : Setting) (execute : Stmt → Run Completion)
    (watched : Labels → Stmt → Run Completion) : Prop :=
  ∀ (σ : Layout) (path : List Opener) (scopes : List Scope) (t : Stmt), σ.Good setting →
    σ.Runs σ.machine.current path scopes → t.Bound setting.record scopes →
    Lies setting.units path (.statement t) → Fits path t →
    Safe setting σ (execute t) (fun labels => watched labels t)
      (Behind setting path (t.after scopes))

theorem Layout.Reaches.runs {σ' : Layout} (h : Reaches setting σ σ') {path : List Opener}
    {scopes : List Scope} (hruns : σ.Runs σ.machine.current path scopes) :
    σ'.Runs σ'.machine.current path scopes := by
  rw [h.current]
  exact hruns.mono h.grows

section

variable {evaluate : Expr → Run Value} {evaluateWatched : Labels → Expr → Run Value}
variable {execute : Stmt → Run Completion} {executeWatched : Labels → Stmt → Run Completion}

/-! ## Lists of parts -/

theorem evaluateAll_safe (hgood : σ.Good setting) (es : List Expr)
    (hes : ∀ σ', Reaches setting σ σ' → ∀ e ∈ es,
      Safe setting σ' (evaluate e) (fun labels => evaluateWatched labels e) (ValueGood setting)) :
    Safe setting σ (Run.evaluateAll evaluate es)
      (fun labels => Run.evaluateAll (evaluateWatched labels) es)
      (fun σ' values => ∀ value ∈ values, ValueGood setting σ' value) := by
  induction es generalizing σ with
  | nil => exact .pure hgood fun _ h => nomatch h
  | cons first more ih =>
    refine (hes σ hgood.reaches first List.mem_cons_self).bind ?_
    intro σ' value hreach hvalue
    have hmore := ih hreach.good fun σ'' hreach' e he =>
      hes σ'' (hreach.trans hreach') e (List.mem_cons_of_mem _ he)
    refine hmore.bind ?_
    intro σ'' values hreach' hvalues
    exact .pure hreach'.good
      (List.forall_mem_cons.mpr ⟨hvalue.mono hreach'.grows, hvalues⟩)

theorem executeAll_safe (hexecute : Executes setting execute executeWatched)
    (hgood : σ.Good setting) {path : List Opener} {scopes : List Scope}
    (hruns : σ.Runs σ.machine.current path scopes) (body : List Stmt)
    (hbound : Stmt.BoundAll setting.record scopes body)
    (hlies : ∀ t ∈ body, Lies setting.units path (.statement t))
    (hfits : ∀ t ∈ body, Fits path t) :
    Safe setting σ (Run.executeAll execute body)
      (fun labels => Run.executeAll (executeWatched labels) body) (CompletionGood setting) := by
  induction body generalizing σ scopes with
  | nil => exact .pure hgood trivial
  | cons first more ih =>
    obtain ⟨hfirst, hmore⟩ := hbound
    refine (hexecute σ path scopes first hgood hruns hfirst (hlies _ List.mem_cons_self)
      (hfits _ List.mem_cons_self)).bind ?_
    intro σ' completion hreach hbehind
    cases completion with
    | normal =>
      exact ih hreach.good (hbehind.2 rfl) hmore (fun t ht => hlies t (List.mem_cons_of_mem _ ht))
        fun t ht => hfits t (List.mem_cons_of_mem _ ht)
    | returned value => exact .pure hreach.good hbehind.1

/-! ## Bodies -/

theorem fits_body {body : List Stmt} {opener : Opener} (hnames : declaredBy body ⊆ opener.names)
    (path : List Opener) : ∀ t ∈ body, Fits (opener :: path) t := by
  intro t ht name hname opener' hopener'
  cases hopener'
  exact hnames (List.mem_map_of_mem (List.mem_filterMap.mpr ⟨t, ht, hname⟩))

theorem CompletionGood.inside {completion : Completion} (h : CompletionGood setting σ completion)
    (frame : FrameId) : CompletionGood setting (σ.inside frame) completion := by
  cases completion with
  | normal => trivial
  | returned value =>
    have grows : σ.Grows (σ.inside frame) := .of_frames_eq rfl rfl
    exact ValueGood.mono grows h

/-- A body runs in a frame of its scope. -/
theorem body_safe (hexecute : Executes setting execute executeWatched) (hgood : σ.Good setting)
    {frame : FrameId} {opener : Opener} {path : List Opener} {scopes : List Scope}
    (hruns : σ.Runs frame (opener :: path) scopes) {body : List Stmt}
    (hbound : Stmt.BoundAll setting.record scopes body)
    (hlies : ∀ t ∈ body, Lies setting.units (opener :: path) (.statement t))
    (hnames : declaredBy body ⊆ opener.names) :
    Safe setting σ (Run.inFrame frame (Run.executeAll execute body))
      (fun labels => Run.inFrame frame (Run.executeAll (executeWatched labels) body))
      (CompletionGood setting) := by
  have entered : σ.Grows (σ.inside frame) ∧ Good setting (σ.inside frame) :=
    hgood.of_same rfl rfl rfl rfl rfl
  refine Safe.inFrame ?_ fun _ _ current h => h.inside current
  exact executeAll_safe hexecute entered.2 (hruns.mono entered.1) body hbound hlies
    (fits_body hnames path)

/-- The scope of parameters has nothing else. -/
theorem find?_parameters (params : List Token) (scopes : List Scope) (scope : Scope) :
    ∃ scope', params.foldl Resolution.introducing (scope :: scopes) = scope' :: scopes ∧
      ∀ name, scope'.contains name = true →
        name ∈ params.map (·.lexeme) ∨ scope.contains name = true := by
  induction params generalizing scope with
  | nil => exact ⟨scope, rfl, fun _ h => .inr h⟩
  | cons param more ih =>
    obtain ⟨scope', hscope', hnames⟩ :=
      ih ((scope.insert param.lexeme false).insert param.lexeme true)
    refine ⟨scope', hscope', fun name hname => ?_⟩
    rcases hnames name hname with hmem | hcontains
    · exact .inl (List.mem_cons_of_mem _ hmem)
    · rw [Bindings.contains, Bindings.find?_insert] at hcontains
      split at hcontains
      · next heq => exact .inl (heq ▸ List.mem_cons_self)
      next hne =>
      rw [Bindings.find?_insert_of_ne _ _ hne] at hcontains
      exact .inr hcontains

/-! ## Calls -/

theorem mem_of_find?_insertAll {bindings : Bindings α} {pairs : List (String × α)} {name : String}
    {a : α} (h : (bindings.insertAll pairs).find? name = some a) :
    (name, a) ∈ pairs ∨ bindings.find? name = some a := by
  induction pairs generalizing bindings with
  | nil => exact .inr h
  | cons pair more ih =>
    rcases ih h with hmem | hfind
    · exact .inl (List.mem_cons_of_mem _ hmem)
    · rw [Bindings.find?_insert] at hfind
      split at hfind
      · next hname =>
        injection hfind with hfind
        exact .inl (hname ▸ hfind ▸ List.mem_cons_self)
      · exact .inr hfind

theorem mem_of_find?_empty_insertAll {pairs : List (String × α)} {name : String} {a : α}
    (h : (Bindings.empty.insertAll pairs).find? name = some a) : (name, a) ∈ pairs :=
  (mem_of_find?_insertAll h).resolve_right fun hempty => Option.some_ne_none a hempty.symm

theorem mem_of_find?_zip {names : List String} {values : List α} {name : String} {a : α}
    (h : (Bindings.empty.insertAll (names.zip values)).find? name = some a) :
    name ∈ names ∧ a ∈ values :=
  List.of_mem_zip (mem_of_find?_empty_insertAll h)

/-- The methods of a class are made of what it declares, all in one frame. -/
theorem exists_of_find?_methods {frame : FrameId} {methods : List FunctionDecl} {key : String}
    {method : Closure}
    (h : (Bindings.empty.insertAll (methods.map (Run.methodClosure frame))).find? key = some method) :
    ∃ declaration ∈ methods, declaration.name.lexeme = key ∧
      method = ⟨declaration, frame, decide (declaration.name.lexeme = initializerName)⟩ := by
  obtain ⟨declaration, hdeclaration, hmade⟩ := List.mem_map.mp (mem_of_find?_empty_insertAll h)
  injection hmade with hkey hmade
  exact ⟨declaration, hdeclaration, hkey, hmade.symm⟩

theorem find?_insertAll_isSome {bindings : Bindings α} {pairs : List (String × α)} {name : String}
    (h : name ∈ pairs.map (·.1) ∨ (bindings.find? name).isSome) :
    ((bindings.insertAll pairs).find? name).isSome := by
  induction pairs generalizing bindings with
  | nil => exact h.resolve_left List.not_mem_nil
  | cons pair more ih =>
    refine ih ?_
    rw [Bindings.find?_insert]
    by_cases hname : pair.1 = name
    · exact .inr (by rw [if_pos hname]; rfl)
    · rw [if_neg hname]
      rcases h with hmem | hfind
      · exact .inl ((List.mem_cons.mp hmem).resolve_left (Ne.symm hname))
      · exact .inr hfind

/-- A call runs the body of a function in a frame with the arguments. -/
theorem callClosure_safe (hexecute : Executes setting execute executeWatched)
    (hgood : σ.Good setting) {closure : Closure} (hclosure : ClosureGood setting σ closure)
    {arguments : List Value} (harguments : ∀ a ∈ arguments, ValueGood setting σ a)
    (hlength : arguments.length = closure.arity) :
    Safe setting σ (Run.callClosure execute closure arguments)
      (fun labels => Run.callClosure (executeWatched labels) closure arguments)
      (ValueGood setting) := by
  obtain ⟨⟨name, params, body⟩, frame, isInitializer⟩ := closure
  obtain ⟨path, scopes, hruns, hlies, hfree, hbound⟩ := hclosure
  obtain ⟨scope, hscopes, hnames⟩ := find?_parameters params scopes .empty
  rw [hscopes] at hbound
  have hparams : ∀ key, scope.contains key = true → key ∈ params.map (·.lexeme) := by
    intro key hkey
    exact (hnames key hkey).resolve_right nofun
  have hzip : ((params.map (·.lexeme)).zip arguments).map (·.1) = params.map (·.lexeme) := by
    refine List.map_fst_zip (Nat.le_of_eq ?_)
    rw [List.length_map]
    exact hlength.symm
  refine Safe.bind (newFrame_quiet hgood (.function ⟨name, params, body⟩) ?_ ?_ nofun (some frame)) ?_
  · intro key value hvalue
    exact harguments value (mem_of_find?_zip hvalue).2
  · intro value hvalue
    obtain ⟨param, hparam, hlexeme⟩ := List.mem_map.mp (mem_of_find?_zip hvalue).1
    exact absurd hlexeme (hfree param hparam)
  rintro σ' _ hreach ⟨rfl, rfl⟩
  have inside := hruns.push hgood (.function ⟨name, params, body⟩)
    (Bindings.empty.insertAll ((params.map (·.lexeme)).zip arguments))
    (fun key hkey => find?_insertAll_isSome (.inl (hzip.symm ▸ hparams key (by
      rw [Bindings.contains, hkey]
      rfl))))
    (fun key hkey => List.mem_append_left _ (hparams key hkey)) nofun fun hkey => by
      obtain ⟨param, hparam, hlexeme⟩ := List.mem_map.mp (hparams _ hkey)
      exact absurd hlexeme (hfree param hparam)
  refine Safe.bind
    (body_safe hexecute hreach.good inside hbound hlies (List.subset_append_right _ _)) ?_
  intro σ' completion hreach' hcompletion
  split
  · refine .get (found_quiet hreach'.good _ fun value hvalue => ?_).safe
    exact hreach'.good.bound frame receiverName value hvalue
  · cases completion with
    | normal => exact .pure hreach'.good trivial
    | returned value => exact .pure hreach'.good hcompletion

/-- A new object is prepared by the initializer of its class. -/
theorem construct_safe (hexecute : Executes setting execute executeWatched)
    (hgood : σ.Good setting) {cls : Class} (hcls : ClassGood setting σ cls)
    {arguments : List Value} (harguments : ∀ a ∈ arguments, ValueGood setting σ a)
    (hlength : arguments.length = cls.arity) :
    Safe setting σ (Run.construct execute cls arguments)
      (fun labels => Run.construct (executeWatched labels) cls arguments)
      (ValueGood setting) := by
  have reaches : Reaches setting σ (σ.create cls) :=
    ⟨.of_frames_eq rfl rfl, hgood.create hcls, rfl⟩
  have created : Quiet setting σ (Run.newObject cls) fun σ' _ => σ' = σ.create cls :=
    .of_ok rfl reaches rfl
  refine Safe.bind created ?_
  rintro σ' id hreach rfl
  unfold Class.arity at hlength
  cases hinit : cls.initializer? with
  | none => exact .pure hreach.good trivial
  | some method =>
    rw [hinit] at hlength
    have hmethod := hcls.mono hreach.grows _ _ hinit
    refine Safe.bind (bindMethod_quiet hreach.good hmethod id) ?_
    intro σ' closure hreach' ⟨hclosure, hdeclaration⟩
    refine Safe.bind (callClosure_safe hexecute hreach'.good hclosure
      (fun a ha => (harguments a ha).mono (hreach.trans hreach').grows) ?_) ?_
    · rw [Closure.arity, hdeclaration]
      exact hlength
    · exact fun σ'' _ hreach'' _ => .pure hreach''.good trivial

/-- A call is safe, whatever is called. -/
theorem call_safe (hexecute : Executes setting execute executeWatched) (hgood : σ.Good setting)
    {callee : Value} (hcallee : ValueGood setting σ callee) (paren : Token)
    {arguments : List Value} (harguments : ∀ a ∈ arguments, ValueGood setting σ a) :
    Safe setting σ (Run.call execute callee paren arguments)
      (fun labels => Run.call (executeWatched labels) callee paren arguments)
      (ValueGood setting) := by
  unfold Run.call
  cases harity : callee.arity? with
  | none => exact .fault hgood ..
  | some arity =>
    by_cases hlength : arguments.length = arity
    · simp only [hlength, ne_eq, not_true_eq_false, if_false]
      cases callee with
      | function f =>
        injection harity with harity
        exact callClosure_safe hexecute hgood hcallee harguments (hlength.trans harity.symm)
      | host f => exact (callHost_quiet hgood paren f harguments).safe
      | cls cls =>
        injection harity with harity
        exact construct_safe hexecute hgood hcallee harguments (hlength.trans harity.symm)
      | _ => exact .fault hgood ..
    · simp only [ne_eq, hlength, not_false_eq_true, if_true]
      exact .fault hgood ..

/-! ## Expressions -/

theorem evaluateRule_safe (hevaluate : Evaluates setting evaluate evaluateWatched)
    (hexecute : Executes setting execute executeWatched) :
    Evaluates setting (Run.evaluateRule evaluate execute)
      fun labels => Run.evaluateRule (evaluateWatched labels) (executeWatched labels) := by
  intro σ path scopes e hgood hruns hbound hlies
  have parts : ∀ part ∈ e.parts, ∀ σ', Reaches setting σ σ' →
      Safe setting σ' (evaluate part) (fun labels => evaluateWatched labels part)
        (ValueGood setting) := by
    intro part hpart σ' hreach
    exact hevaluate σ' path scopes part hreach.good (hreach.runs hruns) (hbound.part hpart)
      (hlies.expression hpart)
  cases e with
  | literal value => exact .pure hgood (by cases value <;> trivial)
  | grouping inner => exact parts inner (List.mem_singleton_self _) σ hgood.reaches
  | unary operator operand =>
    refine (parts operand (List.mem_singleton_self _) σ hgood.reaches).bind ?_
    exact fun σ' a hreach _ => (unary_quiet hreach.good operator a).safe
  | binary left operator right =>
    refine (parts left (by simp [Expr.parts]) σ hgood.reaches).bind ?_
    intro σ' a hreach _
    refine (parts right (by simp [Expr.parts]) σ' hreach).bind ?_
    exact fun σ'' b hreach' _ => (binary_quiet hreach'.good operator a b).safe
  | logical left operator right =>
    refine (parts left (by simp [Expr.parts]) σ hgood.reaches).bind ?_
    intro σ' a hreach ha
    split
    · exact .pure hreach.good ha
    · exact parts right (by simp [Expr.parts]) σ' hreach
  | var id name =>
    exact (lookUp_quiet hgood hruns (hbound ⟨.read, id, name⟩ (List.mem_singleton_self _))).safe
  | this id keyword =>
    have ho := hbound ⟨.receiver, id, keyword⟩ (List.mem_singleton_self _)
    exact (lookUp_quiet hgood hruns ho).safe
  | assign id name value =>
    refine (parts value (List.mem_singleton_self _) σ hgood.reaches).bind ?_
    intro σ' a hreach ha
    have ho := hbound ⟨.assigned, id, name⟩ List.mem_cons_self
    refine Safe.bind (assign_quiet hreach.good (hreach.runs hruns) ho rfl ha) ?_
    exact fun σ'' _ hreach' _ => .pure hreach'.good (ha.mono hreach'.grows)
  | call callee paren arguments =>
    refine (parts callee List.mem_cons_self σ hgood.reaches).bind ?_
    intro σ' f hreach hf
    refine (evaluateAll_safe hreach.good arguments fun σ'' hreach' a ha =>
      parts a (List.mem_cons_of_mem _ ha) σ'' (hreach.trans hreach')).bind ?_
    intro σ'' values hreach' hvalues
    exact call_safe hexecute hreach'.good (hf.mono hreach'.grows) paren hvalues
  | get object name =>
    refine (parts object (List.mem_singleton_self _) σ hgood.reaches).bind ?_
    intro σ' a hreach _
    cases a with
    | object id => exact (getProperty_quiet hreach.good id name).safe
    | _ => exact .fault hreach.good ..
  | set object name value =>
    refine (parts object (by simp [Expr.parts]) σ hgood.reaches).bind ?_
    intro σ' a hreach _
    cases a with
    | object id =>
      refine (parts value (by simp [Expr.parts]) σ' hreach).bind ?_
      intro σ'' b hreach' hb
      refine Safe.bind (setProperty_quiet hreach'.good id name hb) ?_
      exact fun σ''' _ hreach'' _ => .pure hreach''.good (hb.mono hreach''.grows)
    | _ => exact .fault hreach.good ..

/-! ## Declarations -/

/-- A frame holds a name that was bound in it. -/
theorem Layout.Runs.introducing {id : FrameId} {path : List Opener} {scopes : List Scope}
    (hruns : σ.Runs id path scopes) {name : Token} (hname : name.IsFree)
    (hfits : ∀ opener ∈ path.head?, name.lexeme ∈ opener.names) (value : Value) :
    (σ.define id name.lexeme value).Runs id path (Resolution.introducing scopes name) := by
  have grows := Grows.define σ id name.lexeme value
  cases hruns with
  | global => exact .global
  | @scope _ outer opener scope path scopes hid hlt hlabel henclosing hheld hnames hclass hplain houter =>
    have framed : (σ.machine.frames.frame? id).isSome := by
      simpa [Frames.frame?, Frames.nextId] using hlt
    refine .scope hid (Nat.lt_of_lt_of_le hlt grows.nextId_le) hlabel ?_ ?_ ?_ ?_ ?_
      (houter.mono grows)
    · exact (grows.enclosing_eq _ hlt).trans henclosing
    · intro key hkey
      rw [Bindings.find?_insert] at hkey
      split at hkey
      · next heq =>
        show (Frames.local? (Frames.define ..) ..).isSome
        rw [Frames.local?_define, if_pos ⟨rfl, heq, framed⟩]
        rfl
      next hne =>
      rw [Bindings.find?_insert_of_ne _ _ hne] at hkey
      exact grows.held _ key (hheld key hkey)
    · intro key hkey
      rw [Bindings.contains, Bindings.find?_insert] at hkey
      split at hkey
      · next heq => exact heq ▸ hfits opener rfl
      next hne =>
      rw [Bindings.find?_insert_of_ne _ _ hne] at hkey
      exact hnames key hkey
    · intro other methods hreceiver
      subst hreceiver
      exact absurd (List.mem_singleton.mp (hfits _ rfl)) hname
    · intro hreceiver
      rw [Bindings.contains, Bindings.find?_insert_of_ne _ _ hname,
        Bindings.find?_insert_of_ne _ _ hname] at hreceiver
      exact hplain hreceiver

/-- While its initializer is evaluated, a name is declared and need not be held. -/
theorem Layout.Runs.declaring {id : FrameId} {path : List Opener} {scopes : List Scope}
    (hruns : σ.Runs id path scopes) {name : Token} (hname : name.IsFree)
    (hfits : ∀ opener ∈ path.head?, name.lexeme ∈ opener.names) :
    σ.Runs id path (Resolution.declaring name.lexeme scopes) := by
  cases hruns with
  | global => exact .global
  | @scope _ outer opener scope path scopes hid hlt hlabel henclosing hheld hnames hclass hplain houter =>
    refine .scope hid hlt hlabel henclosing ?_ ?_ ?_ ?_ houter
    · intro key hkey
      rw [Bindings.find?_insert] at hkey
      split at hkey
      · nomatch hkey
      · exact hheld key hkey
    · intro key hkey
      rw [Bindings.contains, Bindings.find?_insert] at hkey
      split at hkey
      · next heq => exact heq ▸ hfits opener rfl
      · exact hnames key hkey
    · intro other methods hreceiver
      subst hreceiver
      exact absurd (List.mem_singleton.mp (hfits _ rfl)) hname
    · intro hreceiver
      rw [Bindings.contains, Bindings.find?_insert_of_ne _ _ hname] at hreceiver
      exact hplain hreceiver

/-! ## Statements -/

theorem Layout.Reaches.behind {σ' : Layout} (h : Reaches setting σ σ') {path : List Opener}
    {scopes : List Scope} (hruns : σ.Runs σ.machine.current path scopes) :
    Behind setting path scopes σ' .normal :=
  ⟨trivial, fun _ => h.runs hruns⟩

theorem evaluateOptional_safe (hevaluate : Evaluates setting evaluate evaluateWatched)
    (hgood : σ.Good setting) {path : List Opener} {scopes : List Scope}
    (hruns : σ.Runs σ.machine.current path scopes) {value : Option Expr}
    (hbound : Expr.BoundIfAny setting.record scopes value)
    (hlies : ∀ e ∈ value, Lies setting.units path (.expression e)) :
    Safe setting σ (Run.evaluateOptional evaluate value)
      (fun labels => Run.evaluateOptional (evaluateWatched labels) value)
      (ValueGood setting) := by
  cases value with
  | none => exact .pure hgood trivial
  | some e => exact hevaluate σ path scopes e hgood hruns hbound (hlies e rfl)

/-- A branch, or the body of a loop, leaves the scopes as they are. -/
theorem branch_safe (hexecute : Executes setting execute executeWatched) (hgood : σ.Good setting)
    {path : List Opener} {scopes : List Scope} (hruns : σ.Runs σ.machine.current path scopes)
    {t : Stmt} (ht : t.declared? = none ∧ t.Bound setting.record scopes)
    (hlies : Lies setting.units path (.statement t)) :
    Safe setting σ (execute t) (fun labels => executeWatched labels t)
      (Behind setting path scopes) := by
  have safe := hexecute σ path scopes t hgood hruns ht.2 hlies
    fun name hname => absurd (ht.1.symm.trans hname) nofun
  rwa [Stmt.after, ht.1] at safe

theorem bound_of_mem {record : Record} {scopes : List Scope} {fs : List FunctionDecl}
    (h : FunctionDecl.BoundAll record scopes fs) {f : FunctionDecl} (hf : f ∈ fs) :
    f.Bound record scopes := by
  induction fs with
  | nil => nomatch hf
  | cons first more ih =>
    rcases List.mem_cons.mp hf with rfl | hf
    · exact h.1
    · exact ih h.2 hf

/-- The methods of a class are good where the class has its name. -/
theorem classGood_of_bound {frame : FrameId} {path : List Opener} {scopes : List Scope}
    (hruns : σ.Runs frame path scopes) {name : Token} {methods : List FunctionDecl}
    (hbound : FunctionDecl.BoundAll setting.record (Resolution.classScope :: scopes) methods)
    (hlies : Lies setting.units path (.statement (.classDecl name methods)))
    (identity : Identity) (text : String) :
    ClassGood setting σ
      ⟨identity, text, Bindings.empty.insertAll (methods.map (Run.methodClosure frame))⟩ := by
  intro key method hmethod
  obtain ⟨declaration, hdeclaration, -, rfl⟩ := exists_of_find?_methods hmethod
  refine ⟨path, scopes, name, methods, hruns, fun t ht => ?_, bound_of_mem hbound hdeclaration⟩
  have inside : ([.function declaration, .receiver name methods], .statement t) ∈
      (Code.statement (.classDecl name methods)).parts := by
    refine List.mem_map.mpr ⟨([.function declaration], .statement t), ?_, rfl⟩
    exact List.mem_flatMap.mpr ⟨declaration, hdeclaration, List.mem_map.mpr ⟨t, ht, rfl⟩⟩
  exact Lies.part hlies inside

theorem executeRule_safe (hevaluate : Evaluates setting evaluate evaluateWatched)
    (hexecute : Executes setting execute executeWatched) :
    Executes setting (Run.executeRule evaluate execute)
      fun labels => Run.executeRule (evaluateWatched labels) (executeWatched labels) := by
  intro σ path scopes t hgood hruns hbound hlies hfits
  cases t with
  | expression value =>
    refine (hevaluate σ path scopes value hgood hruns hbound
      (hlies.same (List.mem_singleton_self _))).bind ?_
    exact fun σ' _ hreach _ => .pure hreach.good (hreach.behind hruns)
  | print value =>
    refine (hevaluate σ path scopes value hgood hruns hbound
      (hlies.same (List.mem_singleton_self _))).bind ?_
    intro σ' a hreach _
    refine .get (Safe.bind (write_quiet hreach.good _) ?_)
    intro σ'' _ hreach' _
    refine Safe.bind (write_quiet hreach'.good _) ?_
    exact fun σ''' _ hreach'' _ =>
      .pure hreach''.good ((hreach.trans (hreach'.trans hreach'')).behind hruns)
  | varDecl name initializer =>
    obtain ⟨hname, hvalue⟩ := hbound
    -- the initializer runs where the name is declared, but not held yet
    have hhead := hfits name rfl
    refine (evaluateOptional_safe hevaluate hgood (hruns.declaring hname hhead) hvalue ?_).bind ?_
    · intro e he
      exact hlies.same (List.mem_map.mpr ⟨e, Option.mem_toList.mpr he, rfl⟩)
    intro σ' a hreach ha
    refine Safe.bind (define_quiet hreach.good hname (ha.mono (.define ..))) ?_
    rintro _ _ hreach' rfl
    exact .pure hreach'.good ⟨trivial, fun _ => (hreach.runs hruns).introducing hname hhead a⟩
  | block body =>
    refine .get (Safe.bind (newFrame_quiet hgood (.block body) ?_ ?_ nofun _) ?_)
    · exact nofun
    · exact nofun
    rintro σ' _ hreach ⟨rfl, rfl⟩
    have inside : (σ.push (.block body) .empty (some σ.machine.current)).Runs _ _
        (.empty :: scopes) :=
      hruns.push hgood (.block body) .empty nofun nofun nofun nofun
    have lies : ∀ t ∈ body, Lies setting.units (.block body :: path) (.statement t) :=
      fun t ht => Lies.part hlies (List.mem_map.mpr ⟨t, ht, rfl⟩)
    -- behind the block the frame around it goes on, whatever was declared inside
    refine (body_safe hexecute hreach.good inside hbound lies (List.Subset.refl _)).mono ?_
    intro σ' completion hreach' hcompletion
    exact ⟨hcompletion, fun _ => (hreach.trans hreach').runs hruns⟩
  | ifThen condition thenBranch =>
    refine (hevaluate σ path scopes condition hgood hruns hbound.1
      (hlies.same List.mem_cons_self)).bind ?_
    intro σ' a hreach _
    split
    · exact branch_safe hexecute hreach.good (hreach.runs hruns) hbound.2
        (hlies.same (by simp [Code.parts, Stmt.parts]))
    · exact .pure hreach.good (hreach.behind hruns)
  | ifElse condition thenBranch elseBranch =>
    refine (hevaluate σ path scopes condition hgood hruns hbound.1
      (hlies.same List.mem_cons_self)).bind ?_
    intro σ' a hreach _
    split
    · exact branch_safe hexecute hreach.good (hreach.runs hruns) hbound.2.1
        (hlies.same (by simp [Code.parts, Stmt.parts]))
    · exact branch_safe hexecute hreach.good (hreach.runs hruns) hbound.2.2
        (hlies.same (by simp [Code.parts, Stmt.parts]))
  | whileLoop condition body =>
    refine (hevaluate σ path scopes condition hgood hruns hbound.1
      (hlies.same List.mem_cons_self)).bind ?_
    intro σ' a hreach _
    split
    · refine (branch_safe hexecute hreach.good (hreach.runs hruns) hbound.2
        (hlies.same (by simp [Code.parts, Stmt.parts]))).bind ?_
      intro σ'' completion hreach' hbehind
      cases completion with
      -- the next round is the loop itself as a statement
      | normal => exact hexecute σ'' path scopes _ hreach'.good (hbehind.2 rfl) hbound hlies nofun
      | returned value => exact .pure hreach'.good ⟨hbehind.1, nofun⟩
    · exact .pure hreach.good (hreach.behind hruns)
  | funDecl declaration =>
    obtain ⟨hname, hbody⟩ := hbound
    have hhead := hfits declaration.name rfl
    refine .get (Safe.bind (newFunction_makes hgood ⟨declaration, σ.machine.current, false⟩) ?_)
    rintro σ' _ hreach ⟨identity, rfl⟩
    rw [← hreach.current]
    have there := (hreach.runs hruns).introducing hname hhead
    have lies : BodyLies setting declaration path :=
      fun t ht => Lies.part hlies (List.mem_map.mpr ⟨t, ht, rfl⟩)
    refine Safe.bind (define_quiet hreach.good hname ?_) ?_
    · -- the function is good only once it has its name
      exact ⟨path, _, there _, lies, hbody⟩
    rintro _ _ hreach' rfl
    exact .pure hreach'.good ⟨trivial, fun _ => there _⟩
  | returns keyword value =>
    refine (evaluateOptional_safe hevaluate hgood hruns hbound ?_).bind ?_
    · intro e he
      exact hlies.same (List.mem_map.mpr ⟨e, Option.mem_toList.mpr he, rfl⟩)
    · exact fun σ' a hreach ha => .pure hreach.good ⟨ha, nofun⟩
  | classDecl name methods =>
    obtain ⟨hname, hmethods⟩ := hbound
    have hhead := hfits name rfl
    refine .get (Safe.bind (freshIdentity_quiet hgood) ?_)
    intro σ' identity hreach _
    rw [← hreach.current]
    have there := (hreach.runs hruns).introducing hname hhead
    refine Safe.bind (define_quiet hreach.good hname ?_) ?_
    · exact classGood_of_bound (there _) hmethods hlies identity name.lexeme
    rintro _ _ hreach' rfl
    exact .pure hreach'.good ⟨trivial, fun _ => there _⟩

end

end Lox
