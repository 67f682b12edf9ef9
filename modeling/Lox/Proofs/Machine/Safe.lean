import Lox.Proofs.Machine.Layout

/-!
# Safe runs

A run is safe if it leads from one good layout to another one that has grown from it, never strays, and
goes the same way when it is watched (`Safe`). What watches it may know more labels than there are
frames so far. There is one lemma for each way to put runs together, and one for each primitive.
-/

namespace Lox

namespace Layout

/-- Labels that are those of the frames that there are. -/
def Agrees (σ : Layout) (labels : Labels) : Prop :=
  ∀ id < σ.machine.frames.nextId, labels id = σ.labels id

theorem Grows.agrees {σ σ' : Layout} (h : σ.Grows σ') {labels : Labels} (hlabels : σ'.Agrees labels) :
    σ.Agrees labels :=
  fun id hid => (hlabels id (Nat.lt_of_lt_of_le hid h.nextId_le)).trans (h.labels_eq id hid)

/-- A good layout that has grown from another and has the same current frame. -/
structure Reaches (setting : Setting) (σ σ' : Layout) : Prop where
  grows : σ.Grows σ'
  good : σ'.Good setting
  current : σ'.machine.current = σ.machine.current

theorem Reaches.trans {setting : Setting} {σ σ' σ'' : Layout} (h : Reaches setting σ σ')
    (h' : Reaches setting σ' σ'') : Reaches setting σ σ'' :=
  ⟨h.grows.trans h'.grows, h'.good, h'.current.trans h.current⟩

/-- The layout with another current frame. -/
def inside (σ : Layout) (frame : FrameId) : Layout :=
  { σ with machine := { σ.machine with current := frame } }

theorem Good.reaches {setting : Setting} {σ : Layout} (h : σ.Good setting) : Reaches setting σ σ :=
  ⟨.refl σ, h, rfl⟩

end Layout

namespace Run

variable {α : Type} {frame : FrameId} {p q : Run α} {m m' : Machine}

theorem inFrame_congr (h : q { m with current := frame } = p { m with current := frame }) :
    inFrame frame q m = inFrame frame p m := by
  unfold inFrame
  rw [h]

theorem inFrame_ok {a : α} (h : p { m with current := frame } = .ok a m') :
    inFrame frame p m = .ok a { m' with current := m.current } := by
  unfold inFrame
  rw [h]

theorem inFrame_error {interrupt : Interrupt}
    (h : p { m with current := frame } = .error interrupt m') :
    inFrame frame p m = .error interrupt { m' with current := m.current } := by
  unfold inFrame
  rw [h]

end Run

open Layout

variable {α β : Type} {setting : Setting} {σ σ' : Layout}

/-- The run `p` and the watched run `q` go the same way, which leads to a good layout and does not
stray. -/
def Safe (setting : Setting) (σ : Layout) (p : Run α) (q : Labels → Run α)
    (post : Layout → α → Prop) : Prop :=
  ∃ σ', Reaches setting σ σ' ∧
    (∀ labels, σ'.Agrees labels → q labels σ.machine = p σ.machine) ∧
    ((∃ a, p σ.machine = .ok a σ'.machine ∧ post σ' a) ∨
      ∃ interrupt, p σ.machine = .error interrupt σ'.machine ∧ interrupt ≠ .strayed)

namespace Safe

variable {p : Run α} {q : Labels → Run α} {post : Layout → α → Prop}

/-! ## Putting runs together -/

/-- A run that is not watched inside. -/
theorem of_ok {a : α} (hrun : p σ.machine = .ok a σ'.machine) (hreach : Reaches setting σ σ')
    (hpost : post σ' a) : Safe setting σ p (fun _ => p) post :=
  ⟨σ', hreach, fun _ _ => rfl, .inl ⟨a, hrun, hpost⟩⟩

protected theorem pure (hgood : σ.Good setting) {a : α} (hpost : post σ a) :
    Safe setting σ (pure a) (fun _ => pure a) post :=
  of_ok rfl hgood.reaches hpost

protected theorem throw (hgood : σ.Good setting) {interrupt : Interrupt}
    (h : interrupt ≠ .strayed) : Safe setting σ (throw interrupt) (fun _ => throw interrupt) post :=
  ⟨σ, hgood.reaches, fun _ _ => rfl, .inr ⟨interrupt, rfl, h⟩⟩

protected theorem fault (hgood : σ.Good setting) (line : Nat) (fault : Fault) :
    Safe setting σ (Run.fault line fault) (fun _ => Run.fault line fault) post :=
  .throw hgood nofun

protected theorem mono (h : Safe setting σ p q post) {post' : Layout → α → Prop}
    (hpost : ∀ σ' a, Reaches setting σ σ' → post σ' a → post' σ' a) :
    Safe setting σ p q post' := by
  obtain ⟨σ', hreach, hsame, hend⟩ := h
  refine ⟨σ', hreach, hsame, ?_⟩
  rcases hend with ⟨a, hrun, ha⟩ | herror
  · exact .inl ⟨a, hrun, hpost σ' a hreach ha⟩
  · exact .inr herror

/-- What runs behind something starts where that has led to. -/
protected theorem bind (h : Safe setting σ p q post) {f : α → Run β} {g : Labels → α → Run β}
    {post' : Layout → β → Prop}
    (hf : ∀ σ' a, Reaches setting σ σ' → post σ' a →
      Safe setting σ' (f a) (fun labels => g labels a) post') :
    Safe setting σ (p >>= f) (fun labels => q labels >>= g labels) post' := by
  obtain ⟨σ', hreach, hsame, ⟨a, hrun, ha⟩ | ⟨interrupt, hrun, hinterrupt⟩⟩ := h
  · obtain ⟨σ'', hreach', hsame', hend⟩ := hf σ' a hreach ha
    have run : (p >>= f) σ.machine = f a σ'.machine := by
      show EStateM.bind p f σ.machine = _
      rw [EStateM.bind, hrun]
    refine ⟨σ'', hreach.trans hreach', ?_, ?_⟩
    · intro labels hlabels
      show EStateM.bind (q labels) (g labels) σ.machine = _
      rw [EStateM.bind, hsame labels (hreach'.grows.agrees hlabels), hrun, run]
      exact hsame' labels hlabels
    · rwa [run]
  · have run : (p >>= f) σ.machine = .error interrupt σ'.machine := by
      show EStateM.bind p f σ.machine = _
      rw [EStateM.bind, hrun]
    refine ⟨σ', hreach, ?_, .inr ⟨interrupt, run, hinterrupt⟩⟩
    intro labels hlabels
    show EStateM.bind (q labels) (g labels) σ.machine = _
    rw [EStateM.bind, hsame labels hlabels, hrun, run]

/-- A look at the machine changes nothing. -/
protected theorem get {f : Machine → Run α} {g : Labels → Machine → Run α}
    (h : Safe setting σ (f σ.machine) (fun labels => g labels σ.machine) post) :
    Safe setting σ (get >>= f) (fun labels => get >>= g labels) post := h


/-- What runs in another frame comes back. -/
protected theorem inFrame {frame : FrameId}
    (h : Safe setting (σ.inside frame) p q post)
    (hpost : ∀ σ' a current, post σ' a → post (σ'.inside current) a) :
    Safe setting σ (Run.inFrame frame p) (fun labels => Run.inFrame frame (q labels)) post := by
  obtain ⟨σ', hreach, hsame, hend⟩ := h
  have there : σ.Grows (σ.inside frame) := .of_frames_eq rfl rfl
  have back : σ'.Grows (σ'.inside σ.machine.current) ∧
      (σ'.inside σ.machine.current).Good setting :=
    hreach.good.of_same rfl rfl rfl rfl rfl
  refine ⟨_, ⟨there.trans (hreach.grows.trans back.1), back.2, rfl⟩, ?_, ?_⟩
  · exact fun labels hlabels => Run.inFrame_congr (hsame labels hlabels)
  · rcases hend with ⟨a, hrun, ha⟩ | ⟨interrupt, hrun, hinterrupt⟩
    · exact .inl ⟨a, Run.inFrame_ok hrun, hpost σ' a _ ha⟩
    · exact .inr ⟨interrupt, Run.inFrame_error hrun, hinterrupt⟩

end Safe

/-! ## Runs with nothing to watch -/

/-- A run that is safe by itself. -/
def Quiet (setting : Setting) (σ : Layout) (p : Run α) (post : Layout → α → Prop) : Prop :=
  Safe setting σ p (fun _ => p) post

namespace Quiet

variable {p : Run α} {post : Layout → α → Prop}

theorem safe (h : Quiet setting σ p post) : Safe setting σ p (fun _ => p) post := h

theorem of_ok {a : α} (hrun : p σ.machine = .ok a σ'.machine) (hreach : Reaches setting σ σ')
    (hpost : post σ' a) : Quiet setting σ p post :=
  Safe.of_ok hrun hreach hpost

/-- A run that leaves frames, objects, distances and actions alone. -/
theorem of_same (hgood : σ.Good setting) {a : α} {m : Machine} (hrun : p σ.machine = .ok a m)
    (hframes : m.frames = σ.machine.frames) (hheap : m.heap = σ.machine.heap)
    (hdistances : m.distances = σ.machine.distances) (hactions : m.actions = σ.machine.actions)
    (hcurrent : m.current = σ.machine.current) : Quiet setting σ p fun _ _ => True := by
  have same : σ.Grows { σ with machine := m } ∧ Good setting { σ with machine := m } :=
    hgood.of_same rfl hframes hheap hdistances hactions
  exact of_ok hrun ⟨same.1, same.2, hcurrent⟩ trivial

protected theorem pure (hgood : σ.Good setting) {a : α} (hpost : post σ a) :
    Quiet setting σ (pure a) post :=
  Safe.pure hgood hpost

protected theorem throw (hgood : σ.Good setting) {interrupt : Interrupt}
    (h : interrupt ≠ .strayed) : Quiet setting σ (throw interrupt) post :=
  Safe.throw hgood h

protected theorem fault (hgood : σ.Good setting) (line : Nat) (fault : Fault) :
    Quiet setting σ (Run.fault line fault) post :=
  Safe.fault hgood line fault

protected theorem bind (h : Quiet setting σ p post) {f : α → Run β} {post' : Layout → β → Prop}
    (hf : ∀ σ' a, Reaches setting σ σ' → post σ' a → Quiet setting σ' (f a) post') :
    Quiet setting σ (p >>= f) post' :=
  Safe.bind h hf

protected theorem get {f : Machine → Run α} (h : Quiet setting σ (f σ.machine) post) :
    Quiet setting σ (get >>= f) post := h

end Quiet

end Lox
