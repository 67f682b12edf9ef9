import Lox.Proofs.Machine.Safe
import Lox.Proofs.Twin.Machine

/-!
# Runs that agree

A run on the left and a run on the right agree if they lead from twins to twins and give twins, or are
interrupted by the same fault on lines that belong together (`Agree`). A run on the left that is
watched may stray where a promise is broken, and then nothing is said of the other. There is one
lemma for each way to put runs together, and one for each primitive.
-/

namespace Lox

/-! ## Agreement -/

namespace Tie

/-- Interrupts that differ in their lines alone. -/
inductive Interrupts (tie : Tie) : Interrupt → Interrupt → Prop
  | runtime {n n' : Nat} (fault : Fault) : tie.line n n' →
      Interrupts tie (.stopped (.runtime n fault)) (.stopped (.runtime n' fault))
  | refusal : Interrupts tie (.stopped Sink.refusal) (.stopped Sink.refusal)
  | exhausted : Interrupts tie .exhausted .exhausted

/-- Not everything is promised. -/
def Excuses (tie : Tie) : Prop := ∃ code m, ¬tie.promise code m

end Tie

namespace Pair

/-- Twins that have grown from a pair and have the same current frame. -/
structure Reaches (tie : Tie) (σ σ' : Pair) : Prop where
  grows : σ.Grows σ'
  twins : σ'.Twins tie
  current : σ'.left.current = σ.left.current

theorem Reaches.trans {tie : Tie} {σ σ' σ'' : Pair} (h : Reaches tie σ σ')
    (h' : Reaches tie σ' σ'') : Reaches tie σ σ'' :=
  ⟨h.grows.trans h'.grows, h'.twins, h'.current.trans h.current⟩

theorem Twins.reaches {tie : Tie} {σ : Pair} (h : σ.Twins tie) : Reaches tie σ σ :=
  ⟨.refl σ, h, rfl⟩

theorem Reaches.around {tie : Tie} {σ σ' : Pair} (h : Reaches tie σ σ') {scopes : List Renaming}
    (ha : σ.Around σ.left.current scopes) : σ'.Around σ'.left.current scopes := by
  rw [h.current]
  exact h.grows.around ha

/-- The pair with another current frame on both sides. -/
def inside (σ : Pair) (frame : FrameId) : Pair :=
  ⟨σ.labels, { σ.left with current := frame }, { σ.right with current := frame }⟩

theorem Twins.inside {tie : Tie} {σ : Pair} (h : σ.Twins tie) (frame : FrameId) :
    σ.Grows (σ.inside frame) ∧ (σ.inside frame).Twins tie :=
  h.of_same rfl rfl rfl rfl rfl rfl rfl rfl rfl h.sink h.world h.nextIdentity

end Pair

open Pair

variable {α β : Type} {tie : Tie} {σ σ' : Pair}

/-- The two runs agree, or the one on the left has an excuse. -/
def Agree (tie : Tie) (σ : Pair) (p p' : Run α) (post : Pair → α → α → Prop) : Prop :=
  (∃ σ', Reaches tie σ σ' ∧
    ((∃ a a', p σ.left = .ok a σ'.left ∧ p' σ.right = .ok a' σ'.right ∧ post σ' a a') ∨
      ∃ i i', p σ.left = .error i σ'.left ∧ p' σ.right = .error i' σ'.right ∧
        tie.Interrupts i i')) ∨
    tie.Excuses ∧ ∃ m, p σ.left = .error .strayed m

/-- Values that are twins in a pair. -/
def ValueTwins (tie : Tie) (σ : Pair) (v v' : Value) : Prop := v.Like (σ.codes tie) v'

theorem ValueTwins.mono (h : σ.Grows σ') {v v' : Value} (hv : ValueTwins tie σ v v') :
    ValueTwins tie σ' v v' :=
  Value.Like.mono (h.codes tie) hv

namespace Agree

variable {p p' : Run α} {post : Pair → α → α → Prop}

theorem of_ok {a a' : α} (hrun : p σ.left = .ok a σ'.left) (hrun' : p' σ.right = .ok a' σ'.right)
    (hreach : Reaches tie σ σ') (hpost : post σ' a a') : Agree tie σ p p' post :=
  .inl ⟨σ', hreach, .inl ⟨a, a', hrun, hrun', hpost⟩⟩

protected theorem pure (h : σ.Twins tie) {a a' : α} (hpost : post σ a a') :
    Agree tie σ (pure a) (pure a') post :=
  of_ok rfl rfl h.reaches hpost

protected theorem throw (h : σ.Twins tie) {i i' : Interrupt} (hi : tie.Interrupts i i') :
    Agree tie σ (throw i) (throw i') post :=
  .inl ⟨σ, h.reaches, .inr ⟨i, i', rfl, rfl, hi⟩⟩

protected theorem fault (h : σ.Twins tie) {line line' : Nat} (hline : tie.line line line')
    (fault : Fault) : Agree tie σ (Run.fault line fault) (Run.fault line' fault) post :=
  .throw h (.runtime fault hline)

protected theorem mono (h : Agree tie σ p p' post) {post' : Pair → α → α → Prop}
    (hpost : ∀ σ' a a', Reaches tie σ σ' → post σ' a a' → post' σ' a a') :
    Agree tie σ p p' post' := by
  rcases h with ⟨σ', hreach, ⟨a, a', hrun, hrun', ha⟩ | herror⟩ | hexcuse
  · exact .inl ⟨σ', hreach, .inl ⟨a, a', hrun, hrun', hpost σ' a a' hreach ha⟩⟩
  · exact .inl ⟨σ', hreach, .inr herror⟩
  · exact .inr hexcuse

/-- Agreement goes on where it has led to. -/
protected theorem bind (h : Agree tie σ p p' post) {f f' : α → Run β}
    {post' : Pair → β → β → Prop}
    (hf : ∀ σ' a a', Reaches tie σ σ' → post σ' a a' → Agree tie σ' (f a) (f' a') post') :
    Agree tie σ (p >>= f) (p' >>= f') post' := by
  have ok {q : Run α} {g : α → Run β} {m m' : Machine} {a : α} (hrun : q m = .ok a m') :
      (q >>= g) m = g a m' := by
    show EStateM.bind q g m = _
    rw [EStateM.bind, hrun]
  have error {q : Run α} {g : α → Run β} {m m' : Machine} {i : Interrupt}
      (hrun : q m = .error i m') : (q >>= g) m = .error i m' := by
    show EStateM.bind q g m = _
    rw [EStateM.bind, hrun]
  rcases h with ⟨σ', hreach, ⟨a, a', hrun, hrun', ha⟩ | ⟨i, i', hrun, hrun', hi⟩⟩ |
    ⟨hexcuse, m, hrun⟩
  · rcases hf σ' a a' hreach ha with ⟨σ'', hreach', hend⟩ | ⟨hexcuse, m, hstray⟩
    · refine .inl ⟨σ'', hreach.trans hreach', ?_⟩
      rwa [ok hrun, ok hrun']
    · exact .inr ⟨hexcuse, m, (ok hrun).trans hstray⟩
  · exact .inl ⟨σ', hreach, .inr ⟨i, i', error hrun, error hrun', hi⟩⟩
  · exact .inr ⟨hexcuse, m, error hrun⟩

/-- A look at the machine changes nothing. -/
protected theorem get {f f' : Machine → Run α} (h : Agree tie σ (f σ.left) (f' σ.right) post) :
    Agree tie σ (get >>= f) (get >>= f') post := h

/-- What runs in another frame comes back on both sides. -/
protected theorem inFrame {frame : FrameId} (hcurrent : σ.right.current = σ.left.current)
    (h : Agree tie (σ.inside frame) p p' post)
    (hpost : ∀ σ' a a' current, post σ' a a' → post (σ'.inside current) a a') :
    Agree tie σ (Run.inFrame frame p) (Run.inFrame frame p') post := by
  rcases h with ⟨σ', hreach, hend⟩ | ⟨hexcuse, m, hrun⟩
  · have there : σ.Grows (σ.inside frame) := .of_frames_eq rfl rfl
    have back := hreach.twins.inside σ.left.current
    refine .inl ⟨σ'.inside σ.left.current, ⟨there.trans (hreach.grows.trans back.1), back.2, rfl⟩, ?_⟩
    have right : (σ'.inside σ.left.current).right = { σ'.right with current := σ.right.current } := by
      rw [hcurrent]
      rfl
    rw [right]
    rcases hend with ⟨a, a', hrun, hrun', ha⟩ | ⟨i, i', hrun, hrun', hi⟩
    · exact .inl ⟨a, a', Run.inFrame_ok hrun, Run.inFrame_ok hrun', hpost σ' a a' _ ha⟩
    · exact .inr ⟨i, i', Run.inFrame_error hrun, Run.inFrame_error hrun', hi⟩
  · exact .inr ⟨hexcuse, _, Run.inFrame_error hrun⟩

/-- A run that leaves frames and objects alone, and does the same to the rest on both sides. -/
theorem of_same (h : σ.Twins tie) {a a' : α} {m m' : Machine} (hrun : p σ.left = .ok a m)
    (hrun' : p' σ.right = .ok a' m') (hframes : m.frames = σ.left.frames)
    (hframes' : m'.frames = σ.right.frames) (hheap : m.heap = σ.left.heap)
    (hheap' : m'.heap = σ.right.heap) (hcurrent : m.current = σ.left.current)
    (hcurrent' : m'.current = σ.right.current) (hdistances : m.distances = σ.left.distances)
    (hdistances' : m'.distances = σ.right.distances) (hactions : m.actions = σ.left.actions)
    (hactions' : m'.actions = σ.right.actions) (hsink : m.sink.Behind tie.before m'.sink)
    (hworld : m'.world = m.world) (hidentity : m'.nextIdentity = m.nextIdentity)
    (hpost : ∀ σ', Reaches tie σ σ' → post σ' a a') : Agree tie σ p p' post := by
  have current : m'.current = m.current := by rw [hcurrent, hcurrent', h.current]
  have same := h.of_same hframes hframes' hheap hheap' current hdistances hdistances' hactions
    hactions' hsink hworld hidentity
  have reaches : Reaches tie σ ⟨σ.labels, m, m'⟩ := ⟨same.1, same.2, hcurrent⟩
  exact of_ok hrun hrun' reaches (hpost _ reaches)

/-- To watch the left one gives it an excuse where the promise is broken. -/
theorem watch {code : Code} (h : tie.promise code σ.left → Agree tie σ p p' post) :
    Agree tie σ (Run.watch tie.promise code p) p' post := by
  by_cases before : tie.promise code σ.left
  · rcases h before with ⟨σ', hreach, ⟨a, a', hrun, hrun', ha⟩ | ⟨i, i', hrun, hrun', hi⟩⟩ |
      ⟨hexcuse, m, hrun⟩
    · by_cases behind : tie.promise code σ'.left
      · refine .inl ⟨σ', hreach, .inl ⟨a, a', ?_, hrun', ha⟩⟩
        simp only [Run.watch, if_pos before, hrun, if_pos behind]
      · refine .inr ⟨⟨code, σ'.left, behind⟩, σ'.left, ?_⟩
        simp only [Run.watch, if_pos before, hrun, if_neg behind]
    · refine .inl ⟨σ', hreach, .inr ⟨i, i', ?_, hrun', hi⟩⟩
      simp only [Run.watch, if_pos before, hrun]
    · refine .inr ⟨hexcuse, m, ?_⟩
      simp only [Run.watch, if_pos before, hrun]
  · refine .inr ⟨⟨code, σ.left, before⟩, σ.left, ?_⟩
    simp only [Run.watch, if_neg before]

end Agree

/-! ## Variables -/

namespace Pair.Around

/-- The frame at a distance is labelled with the scope at this distance. -/
theorem exists_ancestor? {id : FrameId} {scopes : List Renaming} (h : σ.Around id scopes) {d : Nat}
    {ρ : Renaming} (hd : scopes[d]? = some ρ) :
    ∃ frame, σ.left.frames.ancestor? d id = some frame ∧ σ.labels frame = ρ := by
  induction h generalizing d with
  | global => nomatch hd
  | @scope id outer scopes henclosing _ ih =>
    cases d with
    | zero =>
      injection hd with hd
      exact ⟨id, rfl, hd⟩
    | succ d =>
      rw [Frames.ancestor?, henclosing]
      exact ih hd

/-- A frame is labelled with the innermost of the scopes around it. -/
theorem label (htwins : σ.Twins tie) {id : FrameId} {scopes : List Renaming}
    (h : σ.Around id scopes) : σ.labels id = Renaming.innermost scopes := by
  cases h with
  | global => exact htwins.global
  | scope _ _ => rfl

end Pair.Around

theorem found_agree (h : σ.Twins tie) {name name' : Token} (hline : tie.line name.line name'.line)
    {v v' : Option Value} (hv : Option.Rel (ValueTwins tie σ) v v')
    (hname : v = none → name'.lexeme = name.lexeme) :
    Agree tie σ (Run.found name v) (Run.found name' v') (ValueTwins tie) := by
  cases hv with
  | none =>
    rw [Run.found, Run.found, hname rfl]
    exact .fault h hline _
  | some hv => exact .pure h (Value.Like.strong hv)

theorem ancestor_agree (h : σ.Twins tie) {d : Nat} {frame : FrameId}
    (hframe : σ.left.frames.ancestor? d σ.left.current = some frame) :
    Agree tie σ (Run.ancestor d) (Run.ancestor d)
      fun σ' a a' => σ' = σ ∧ a = frame ∧ a' = frame := by
  refine .get ?_
  rw [Frames.ancestor?_congr h.enclosing, h.current, hframe]
  exact .pure h ⟨rfl, rfl, rfl⟩

/-- A name that is bound to a scope is read from the frame of this scope on both sides. -/
theorem lookUp_agree (h : σ.Twins tie) {scopes : List Renaming}
    (ha : σ.Around σ.left.current scopes) {o o' : Occurrence} (ho : tie.Occurs scopes o o')
    (hrole : o.role ≠ .assigned) {e : Expr} (he : o ∈ (Code.expression e).occurrence?)
    (hpromise : tie.promise (.expression e) σ.left) :
    Agree tie σ (Run.lookUp o.id o.token) (Run.lookUp o'.id o'.token) (ValueTwins tie) := by
  refine .get ?_
  rw [h.distances, h.distances', ho.distance]
  cases hd : tie.left.distance? o.id with
  | none =>
    have same := ho.named hd
    refine .get ?_
    simp only [Frames.find?_globalId, same]
    exact found_agree h ho.line (h.local?_global _) fun _ => same
  | some d =>
    obtain ⟨ρ, hρ, hlexeme⟩ := ho.renamed d hd
    obtain ⟨frame, hframe, rfl⟩ := ha.exists_ancestor? hρ
    refine (ancestor_agree h hframe).bind ?_
    rintro _ _ _ - ⟨rfl, rfl, rfl⟩
    refine .get ?_
    rw [hlexeme]
    refine found_agree h ho.line (h.held _ _) fun hnone => ?_
    rcases ho.there hrole with hsame | hguards
    · exact hsame
    · -- another name is read only where it is there
      obtain ⟨frame', hframe', hthere⟩ :=
        hguards e _ hpromise o he hrole d ((h.distances _).trans hd)
      rw [hframe, Option.some.injEq] at hframe'
      rw [← hframe', hnone] at hthere
      nomatch hthere

theorem redefine_agree (h : σ.Twins tie) {id : FrameId} {name name' : Token} (hname : name.IsFree)
    (hname' : name'.lexeme = (σ.labels id).names name.lexeme) {v v' : Value}
    (hv : ValueTwins tie σ v v') :
    Agree tie σ
      (modify fun m => { m with frames := m.frames.define id name.lexeme v } : Run Unit)
      (modify fun m => { m with frames := m.frames.define id name'.lexeme v' } : Run Unit)
      fun _ _ _ => True := by
  have reaches : Reaches tie σ (σ.define id name.lexeme name'.lexeme v v') :=
    ⟨.define .., h.define hv hname' (absurd · hname), rfl⟩
  exact .of_ok rfl rfl reaches trivial

theorem define_agree (h : σ.Twins tie) {scopes : List Renaming}
    (ha : σ.Around σ.left.current scopes) {name name' : Token}
    (hname : Tie.Declares (Renaming.innermost scopes) name name') {v v' : Value}
    (hv : ValueTwins tie σ v v') :
    Agree tie σ (Run.define name.lexeme v) (Run.define name'.lexeme v') fun _ _ _ => True := by
  have label := hname.lexeme
  rw [← ha.label h] at label
  have run' : Run.define name'.lexeme v' σ.right =
      .ok () (σ.define σ.right.current name.lexeme name'.lexeme v v').right := rfl
  rw [h.current] at run'
  exact .of_ok rfl run' ⟨.define .., h.define hv label (absurd · hname.free), rfl⟩ trivial

theorem assign_agree (h : σ.Twins tie) {scopes : List Renaming}
    (ha : σ.Around σ.left.current scopes) {o o' : Occurrence} (ho : tie.Occurs scopes o o')
    (hrole : o.role = .assigned) {v v' : Value} (hv : ValueTwins tie σ v v') :
    Agree tie σ (Run.assign o.id o.token v) (Run.assign o'.id o'.token v') fun _ _ _ => True := by
  refine .get ?_
  rw [h.distances, h.distances', ho.distance]
  have free := ho.free hrole
  cases hd : tie.left.distance? o.id with
  | none =>
    have same := ho.named hd
    have held : (σ.right.frames.local? Frames.globalId o.token.lexeme).isSome =
        (σ.left.frames.local? Frames.globalId o.token.lexeme).isSome := by
      have global := h.local?_global o.token.lexeme
      generalize σ.left.frames.local? _ _ = v at global ⊢
      generalize σ.right.frames.local? _ _ = v' at global ⊢
      cases global <;> rfl
    refine .get ?_
    simp only [Frames.holder?_globalId, same, held]
    split
    · next hholder =>
      split at hholder
      · injection hholder with hholder
        subst hholder
        have kept : o'.token.lexeme = (σ.labels Frames.globalId).names o.token.lexeme := by
          rw [h.global, same]
          rfl
        have again := redefine_agree h free kept hv
        rwa [same] at again
      · nomatch hholder
    · exact .fault h ho.line _
  | some d =>
    obtain ⟨ρ, hρ, hlexeme⟩ := ho.renamed d hd
    obtain ⟨frame, hframe, rfl⟩ := ha.exists_ancestor? hρ
    refine (ancestor_agree h hframe).bind ?_
    rintro _ _ _ - ⟨rfl, rfl, rfl⟩
    exact redefine_agree h free hlexeme hv

/-! ## New frames and functions -/

theorem newFrame_agree (h : σ.Twins tie) (ρ : Renaming) {bindings bindings' : Bindings Value}
    (hbindings : ∀ name, Option.Rel (ValueTwins tie σ) (bindings.find? name)
      (bindings'.find? (ρ.names name))) (enclosing : Option FrameId) :
    Agree tie σ (Run.newFrame bindings enclosing) (Run.newFrame bindings' enclosing)
      fun σ' id id' => σ' = σ.push ρ bindings bindings' enclosing ∧
        id = σ.left.frames.nextId ∧ id' = σ.left.frames.nextId := by
  have reaches : Reaches tie σ (σ.push ρ bindings bindings' enclosing) :=
    ⟨.push .., h.push ρ hbindings enclosing, rfl⟩
  exact .of_ok rfl rfl reaches ⟨rfl, rfl, h.nextId⟩

theorem freshIdentity_agree (h : σ.Twins tie) :
    Agree tie σ Run.freshIdentity Run.freshIdentity fun _ a a' => a' = a :=
  .of_same h rfl rfl rfl rfl rfl rfl rfl rfl rfl rfl rfl rfl h.sink h.world
    (congrArg (· + 1) h.nextIdentity) fun _ _ => h.nextIdentity

theorem newFunction_agree (h : σ.Twins tie) {c c' : Closure} (hc : σ.MadeFrom tie [] c c') :
    Agree tie σ (Run.newFunction c) (Run.newFunction c') (ValueTwins tie) := by
  refine (freshIdentity_agree h).bind ?_
  rintro σ' identity identity' hreach hidentity
  subst hidentity
  exact .pure hreach.twins (.function identity' (hreach.grows.madeFrom hc))

/-! ## Receivers -/

theorem receiver_bindings (ρ : Renaming) {v v' : Value} (hv : ValueTwins tie σ v v')
    (name : String) :
    Option.Rel (ValueTwins tie σ) ((Bindings.empty.insert receiverName v).find? name)
      ((Bindings.empty.insert receiverName v').find? (ρ.names name)) := by
  have receiver := @find?_insert_like _ _ ρ .empty .empty (fun _ => .none) receiverName _ _ hv name
  rwa [ρ.receiver] at receiver

/-- A method gets a frame for its receiver, in which its own names are called as they were. -/
theorem bindTo_agree (h : σ.Twins tie) {c c' : Closure}
    (hinitializer : c'.isInitializer = c.isInitializer) {outer : FrameId}
    {scopes : List Renaming} (ha : σ.Around outer scopes) (ρ : Renaming)
    (htwin : c.declaration.Twin tie (ρ :: scopes) c'.declaration) {v v' : Value}
    (hv : ValueTwins tie σ v v') :
    Agree tie σ (Run.bindTo c (some outer) v) (Run.bindTo c' (some outer) v')
      fun σ' c c' => σ'.MadeFrom tie [] c c' := by
  refine (newFrame_agree h ρ (receiver_bindings ρ hv) (some outer)).bind ?_
  rintro σ' _ _ hreach ⟨rfl, rfl, rfl⟩
  exact .pure hreach.twins ⟨rfl, hinitializer, _, ha.push ρ _ _, htwin⟩

theorem bindMethod_agree (h : σ.Twins tie) {c c' : Closure} (hc : σ.MadeFrom tie [.same] c c')
    (id : ObjectId) :
    Agree tie σ (Run.bindMethod c id) (Run.bindMethod c' id)
      fun σ' c c' => σ'.MadeFrom tie [] c c' := by
  obtain ⟨scopes, ha, htwin⟩ := hc.code
  unfold Run.bindMethod
  rw [hc.frame]
  exact bindTo_agree h hc.isInitializer ha .same htwin (.object id)

theorem receiver_twins (h : σ.Twins tie) (id : FrameId) :
    Option.Rel (ValueTwins tie σ) (σ.left.frames.local? id receiverName)
      (σ.right.frames.local? id receiverName) := by
  have held := h.held id receiverName
  rwa [(σ.labels id).receiver] at held

theorem rebind_agree (h : σ.Twins tie) (identity : Identity) {c c' : Closure}
    (hc : σ.MadeFrom tie [] c c') {receiver : Value}
    (hreceiver : σ.left.frames.local? c.frame receiverName = some receiver)
    (hobject : receiver.objectId?.isSome) {v v' : Value} (hv : ValueTwins tie σ v v') :
    Agree tie σ (Run.rebind ⟨identity, c⟩ v) (Run.rebind ⟨identity, c'⟩ v') (ValueTwins tie) := by
  obtain ⟨scopes, ha, htwin⟩ := hc.code
  refine .get ?_
  simp only [hc.frame, h.enclosing]
  generalize c.frame = id at ha hreceiver ⊢
  cases ha with
  | global =>
    -- the global frame has no receiver
    rw [h.receiver receiver hreceiver] at hobject
    nomatch hobject
  | @scope id outer scopes henclosing ha =>
    rw [henclosing]
    refine (bindTo_agree h hc.isInitializer ha _ htwin hv).bind ?_
    exact fun σ' c c' hreach hc => newFunction_agree hreach.twins hc

/-! ## Properties -/

theorem receiver?_agree (h : σ.Twins tie) {c c' : Closure} (hframe : c'.frame = c.frame) :
    Agree tie σ (Run.receiver? c) (Run.receiver? c') fun σ' v v' =>
      σ' = σ ∧ v = σ.left.frames.local? c.frame receiverName ∧ Option.Rel (ValueTwins tie σ) v v' := by
  refine .get ?_
  rw [hframe]
  exact .pure h ⟨rfl, rfl, receiver_twins h c.frame⟩

theorem unstored_agree (h : σ.Twins tie) (id : ObjectId) {v v' : Value}
    (hv : ValueTwins tie σ v v') :
    Agree tie σ (Run.unstored id v) (Run.unstored id v') (ValueTwins tie) := by
  cases hv with
  | function identity hc =>
    refine (receiver?_agree h hc.frame).bind ?_
    rintro _ v v' - ⟨rfl, hkept, hv⟩
    cases hv with
    | none => exact .pure h (.function identity hc)
    | some hv =>
      cases hv with
      | weakObject kept =>
        by_cases hid : kept = id
        · simp only [if_pos hid]
          exact rebind_agree h identity hc hkept.symm rfl (.object id)
        · simp only [if_neg hid]
          exact .pure h (.function identity hc)
      | _ => exact .pure h (.function identity hc)
  | cls hc => exact .pure h (.cls hc)
  | _ => exact .pure h (by constructor)

theorem stored_agree (h : σ.Twins tie) (id : ObjectId) {v v' : Value}
    (hv : ValueTwins tie σ v v') :
    Agree tie σ (Run.stored id v) (Run.stored id v') (ValueTwins tie) := by
  cases hv with
  | function identity hc =>
    refine (receiver?_agree h hc.frame).bind ?_
    rintro _ v v' - ⟨rfl, hkept, hv⟩
    cases hv with
    | none => exact .pure h (.function identity hc)
    | some hv =>
      cases hv with
      | object kept =>
        by_cases hid : kept = id
        · simp only [if_pos hid]
          exact rebind_agree h identity hc hkept.symm rfl (.weakObject id)
        · simp only [if_neg hid]
          exact .pure h (.function identity hc)
      | _ => exact .pure h (.function identity hc)
  | cls hc => exact .pure h (.cls hc)
  | _ => exact .pure h (by constructor)

theorem getProperty_agree (h : σ.Twins tie) (id : ObjectId) {name name' : Token}
    (hname : tie.Alike name name') :
    Agree tie σ (Run.getProperty id name) (Run.getProperty id name') (ValueTwins tie) := by
  refine .get ?_
  rw [hname.lexeme]
  have field := h.heap.field? id name.lexeme
  generalize σ.left.heap.field? id name.lexeme = v at field ⊢
  generalize σ.right.heap.field? id name.lexeme = v' at field ⊢
  cases field with
  | some hv => exact unstored_agree h id hv
  | none =>
    refine .get ?_
    have method := h.heap.method? id name.lexeme
    generalize σ.left.heap.method? id name.lexeme = c at method ⊢
    generalize σ.right.heap.method? id name.lexeme = c' at method ⊢
    cases method with
    | none => exact .fault h hname.line _
    | some hc =>
      refine (bindMethod_agree h hc id).bind ?_
      exact fun σ' c c' hreach hc => newFunction_agree hreach.twins hc

theorem setProperty_agree (h : σ.Twins tie) (id : ObjectId) {name name' : Token}
    (hname : tie.Alike name name') {v v' : Value} (hv : ValueTwins tie σ v v') :
    Agree tie σ (Run.setProperty id name v) (Run.setProperty id name' v') fun _ _ _ => True := by
  refine (stored_agree h id hv).bind fun σ' kept kept' hreach hkept => ?_
  rw [hname.lexeme]
  have after := hreach.twins.of_heap (hreach.twins.heap.setField id name.lexeme hkept)
  exact .of_ok rfl rfl ⟨after.1, after.2, rfl⟩ trivial

/-! ## What is outside of frames and objects -/

theorem write_agree (h : σ.Twins tie) (text : String) :
    Agree tie σ (Run.write text) (Run.write text) fun _ _ _ => True := by
  unfold Run.write
  by_cases hempty : text.isEmpty
  · simp only [if_pos hempty]
    exact .pure h trivial
  · simp only [if_neg hempty]
    refine .get ?_
    simp only [h.sink.isFull]
    by_cases hfull : σ.left.sink.isFull
    · simp only [if_pos hfull]
      exact .throw h .refusal
    · simp only [if_neg hfull]
      exact .of_same h rfl rfl rfl rfl rfl rfl rfl rfl rfl rfl rfl rfl (h.sink.append text) h.world
        h.nextIdentity fun _ _ => trivial

/-- Blind functions of the host answer twins with twins. -/
theorem callHost_agree (h : σ.Twins tie) {paren paren' : Token} (hparen : tie.Alike paren paren')
    (f : HostFunction) {arguments arguments' : List Value}
    (harguments : List.Forall₂ (ValueTwins tie σ) arguments arguments') :
    Agree tie σ (Run.callHost paren f arguments) (Run.callHost paren' f arguments')
      (ValueTwins tie) := by
  refine .get ?_
  have actions : σ.right.actions[f.index]? = σ.left.actions[f.index]? := by rw [h.actions]
  rw [actions]
  cases haction : σ.left.actions[f.index]? with
  | none => exact .pure h .nil
  | some action =>
    have blind := h.blind action (Array.mem_of_getElem? haction) (σ.codes tie) (codes_keeps tie σ)
      σ.left.heap σ.right.heap σ.left.world arguments arguments' h.heap harguments
    simp only [h.world]
    generalize action σ.left.heap σ.left.world arguments = answer at blind ⊢
    generalize action σ.right.heap σ.left.world arguments' = answer' at blind ⊢
    obtain ⟨answer, world⟩ := answer
    obtain ⟨answer', world'⟩ := answer'
    obtain ⟨hworld, hanswer⟩ := blind
    have after : Agree tie σ (set { σ.left with world := world } : Run PUnit)
        (set { σ.right with world := world' } : Run PUnit) fun σ' _ _ => σ.Grows σ' :=
      .of_same h rfl rfl rfl rfl rfl rfl rfl rfl rfl rfl rfl rfl h.sink hworld h.nextIdentity
        fun _ hreach => hreach.grows
    refine after.bind fun σ' _ _ hreach grows => ?_
    cases hanswer with
    | ok hv => exact .pure hreach.twins (ValueTwins.mono grows hv)
    | error message => exact .fault hreach.twins hparen.line _

/-! ## Operators -/

/-- Two operands that are numbers on one side are the same numbers on the other. -/
theorem arithmetic_agree (h : σ.Twins tie) {operator operator' : Token}
    (hoperator : tie.Alike operator operator') {result : Float → Float → Value}
    (hresult : ∀ a b, ValueTwins tie σ (result a b) (result a b)) {v v' w w' : Value}
    (hv : ValueTwins tie σ v v') (hw : ValueTwins tie σ w w') :
    Agree tie σ (Run.arithmetic operator result v w) (Run.arithmetic operator' result v' w')
      (ValueTwins tie) := by
  cases hv with
  | number a =>
    cases hw with
    | number b => exact .pure h (hresult a b)
    | _ => exact .fault h hoperator.line _
  | _ => exact .fault h hoperator.line _

theorem sum_agree (h : σ.Twins tie) {operator operator' : Token}
    (hoperator : tie.Alike operator operator') {v v' w w' : Value}
    (hv : ValueTwins tie σ v v') (hw : ValueTwins tie σ w w') :
    Agree tie σ (Run.sum operator v w) (Run.sum operator' v' w') (ValueTwins tie) := by
  cases hv with
  | number a =>
    cases hw with
    | number b => exact .pure h (.number _)
    | _ => exact .fault h hoperator.line _
  | string a =>
    cases hw with
    | string b => exact .pure h (.string _)
    | _ => exact .fault h hoperator.line _
  | _ => exact .fault h hoperator.line _

theorem unary_agree (h : σ.Twins tie) {operator operator' : Token}
    (hoperator : tie.Alike operator operator') {v v' : Value} (hv : ValueTwins tie σ v v') :
    Agree tie σ (Run.unary operator v) (Run.unary operator' v') (ValueTwins tie) := by
  unfold Run.unary
  rw [hoperator.kind]
  split
  · rw [Value.Like.isTruthy hv]
    exact .pure h (.boolean _)
  · cases hv with
    | number a => exact .pure h (.number _)
    | _ => exact .fault h hoperator.line _
  · exact .fault h hoperator.line _

theorem binary_agree (h : σ.Twins tie) {operator operator' : Token}
    (hoperator : tie.Alike operator operator') {v v' w w' : Value}
    (hv : ValueTwins tie σ v v') (hw : ValueTwins tie σ w w') :
    Agree tie σ (Run.binary operator v w) (Run.binary operator' v' w') (ValueTwins tie) := by
  have equals : v'.equals w' = v.equals w := Value.Like.equals hv hw
  have number (result : Float → Float → Float) : Agree tie σ
      (Run.arithmetic operator (fun a b => .number (result a b)) v w)
      (Run.arithmetic operator' (fun a b => .number (result a b)) v' w') (ValueTwins tie) :=
    arithmetic_agree h hoperator (fun _ _ => .number _) hv hw
  have boolean (result : Float → Float → Bool) : Agree tie σ
      (Run.arithmetic operator (fun a b => .boolean (result a b)) v w)
      (Run.arithmetic operator' (fun a b => .boolean (result a b)) v' w') (ValueTwins tie) :=
    arithmetic_agree h hoperator (fun _ _ => .boolean _) hv hw
  unfold Run.binary
  rw [hoperator.kind, equals]
  split
  · exact .pure h (.boolean _)
  · exact .pure h (.boolean _)
  · exact sum_agree h hoperator hv hw
  · exact number _
  · exact number _
  · exact number _
  · exact boolean _
  · exact boolean _
  · exact boolean _
  · exact boolean _
  · exact .fault h hoperator.line _

theorem decides_twin {operator operator' : Token} (hoperator : tie.Alike operator operator')
    {v v' : Value} (hv : ValueTwins tie σ v v') :
    Run.decides operator' v' = Run.decides operator v := by
  unfold Run.decides
  rw [hoperator.kind, Value.Like.isTruthy hv]

end Lox
