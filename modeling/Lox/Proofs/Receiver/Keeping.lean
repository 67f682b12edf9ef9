import Lox.Proofs.Machine.Rules
import Lox.Proofs.Receiver.Attended

/-!
# Runs that keep receivers sealed

A run keeps receivers sealed if it leads from a tidy machine to a later one that is tidy, and goes the
same way when it is attended (`Keeps`). Who attends it may know the machine that comes last. There is
one lemma for each way to put runs together.
-/

namespace Lox

variable {α β : Type}

namespace Machine

/-- A tidy machine that is later than another one and has the same current frame. -/
structure Reaches (m m' : Machine) : Prop where
  earlier : m.Earlier m'
  tidy : m'.Tidy
  current : m'.current = m.current

variable {m m' m'' : Machine}

theorem Tidy.reaches (h : m.Tidy) : m.Reaches m := ⟨.refl m, h, rfl⟩

theorem Reaches.trans (h : m.Reaches m') (h' : m'.Reaches m'') : m.Reaches m'' :=
  ⟨h.earlier.trans h'.earlier, h'.tidy, h'.current.trans h.current⟩

/-- The machine with another current frame. -/
def inside (m : Machine) (frame : FrameId) : Machine := { m with current := frame }

theorem Tidy.inside (h : m.Tidy) {frame : FrameId} (hlt : frame < m.frames.nextId)
    (hfull : ¬m.HoldsWeakly frame) : m.Earlier (m.inside frame) ∧ (m.inside frame).Tidy :=
  h.of_same rfl rfl h.host hlt hfull

end Machine

open Machine

variable {m m' : Machine}

/-- The run `p` and the attended run `q` go the same way, which leads to a tidy machine. -/
def Keeps (m : Machine) (p : Run α) (q : Machine → Run α) (post : Machine → α → Prop) : Prop :=
  ∃ m', m.Reaches m' ∧ (∀ final, m'.Earlier final → q final m = p m) ∧
    ((∃ a, p m = .ok a m' ∧ post m' a) ∨ ∃ interrupt, p m = .error interrupt m')

namespace Keeps

variable {p : Run α} {q : Machine → Run α} {post : Machine → α → Prop}

/-! ## Putting runs together -/

protected theorem pure (h : m.Tidy) {a : α} (hpost : post m a) :
    Keeps m (pure a) (fun _ => pure a) post :=
  ⟨m, h.reaches, fun _ _ => rfl, .inl ⟨a, rfl, hpost⟩⟩

protected theorem throw (h : m.Tidy) (interrupt : Interrupt) :
    Keeps m (throw interrupt) (fun _ => throw interrupt) post :=
  ⟨m, h.reaches, fun _ _ => rfl, .inr ⟨interrupt, rfl⟩⟩

protected theorem fault (h : m.Tidy) (line : Nat) (fault : Fault) :
    Keeps m (Run.fault line fault) (fun _ => Run.fault line fault) post :=
  .throw h _

protected theorem mono (h : Keeps m p q post) {post' : Machine → α → Prop}
    (hpost : ∀ m' a, m.Reaches m' → post m' a → post' m' a) : Keeps m p q post' := by
  obtain ⟨m', hreach, hsame, ⟨a, hrun, ha⟩ | herror⟩ := h
  · exact ⟨m', hreach, hsame, .inl ⟨a, hrun, hpost m' a hreach ha⟩⟩
  · exact ⟨m', hreach, hsame, .inr herror⟩

/-- What runs behind something starts where that has led to. -/
protected theorem bind (h : Keeps m p q post) {f : α → Run β} {g : Machine → α → Run β}
    {post' : Machine → β → Prop}
    (hf : ∀ m' a, m.Reaches m' → post m' a → Keeps m' (f a) (fun final => g final a) post') :
    Keeps m (p >>= f) (fun final => q final >>= g final) post' := by
  obtain ⟨m', hreach, hsame, ⟨a, hrun, ha⟩ | ⟨interrupt, hrun⟩⟩ := h
  · obtain ⟨m'', hreach', hsame', hend⟩ := hf m' a hreach ha
    have run : (p >>= f) m = f a m' := by
      show EStateM.bind p f m = _
      rw [EStateM.bind, hrun]
    refine ⟨m'', hreach.trans hreach', fun final hfinal => ?_, by rwa [run]⟩
    show EStateM.bind (q final) (g final) m = _
    rw [EStateM.bind, hsame final (hreach'.earlier.trans hfinal), hrun, run]
    exact hsame' final hfinal
  · have run : (p >>= f) m = .error interrupt m' := by
      show EStateM.bind p f m = _
      rw [EStateM.bind, hrun]
    refine ⟨m', hreach, fun final hfinal => ?_, .inr ⟨interrupt, run⟩⟩
    show EStateM.bind (q final) (g final) m = _
    rw [EStateM.bind, hsame final hfinal, hrun, run]

/-- A look at the machine changes nothing. -/
protected theorem get {f : Machine → Run α} {g : Machine → Machine → Run α}
    (h : Keeps m (f m) (fun final => g final m) post) :
    Keeps m (get >>= f) (fun final => get >>= g final) post := h

/-- What runs in another frame comes back. -/
protected theorem inFrame (htidy : m.Tidy) {frame : FrameId} (hlt : frame < m.frames.nextId)
    (hfull : ¬m.HoldsWeakly frame)
    (h : m.Earlier (m.inside frame) → (m.inside frame).Tidy → Keeps (m.inside frame) p q post)
    (hpost : ∀ m' a current, m'.Earlier (m'.inside current) → post m' a →
      post (m'.inside current) a) :
    Keeps m (Run.inFrame frame p) (fun final => Run.inFrame frame (q final)) post := by
  obtain ⟨there, entered⟩ := htidy.inside hlt hfull
  obtain ⟨m', hreach, hsame, hend⟩ := h there entered
  have earlier : m.Earlier m' := there.trans hreach.earlier
  obtain ⟨back, left⟩ := hreach.tidy.inside
    (Nat.lt_of_lt_of_le htidy.current_lt earlier.nextId_le)
    (fun hweak => htidy.isSealed.current ((earlier.holdsWeakly_iff htidy.current_lt).mp hweak))
  refine ⟨m'.inside m.current, ⟨earlier.trans back, left, rfl⟩, fun final hfinal => ?_, ?_⟩
  · exact Run.inFrame_congr (hsame final (back.trans hfinal))
  · rcases hend with ⟨a, hrun, ha⟩ | ⟨interrupt, hrun⟩
    · exact .inl ⟨a, Run.inFrame_ok hrun, hpost m' a _ back ha⟩
    · exact .inr ⟨interrupt, Run.inFrame_error hrun⟩

/-- To attend a run changes nothing if all is as it should be. -/
theorem attend (h : Keeps m p q post) {before : Machine → Machine → Prop}
    {behind : Machine → Machine → α → Machine → Prop}
    (hbefore : ∀ final, m.Earlier final → before final m)
    (hbehind : ∀ final m' a, m.Reaches m' → m'.Earlier final → post m' a → behind final m a m') :
    Keeps m p (fun final => Run.attend (before final) (behind final) (q final)) post := by
  obtain ⟨m', hreach, hsame, hend⟩ := h
  refine ⟨m', hreach, fun final hfinal => ?_, hend⟩
  simp only [Run.attend, if_pos (hbefore final (hreach.earlier.trans hfinal)), hsame final hfinal]
  rcases hend with ⟨a, hrun, ha⟩ | ⟨interrupt, hrun⟩
  · simp only [hrun, if_pos (hbehind final m' a hreach hfinal ha)]
  · simp only [hrun]

end Keeps

/-! ## Runs with nothing to attend -/

/-- A run that nobody attends. -/
def Alone (m : Machine) (p : Run α) (post : Machine → α → Prop) : Prop :=
  Keeps m p (fun _ => p) post

namespace Alone

variable {p : Run α} {post : Machine → α → Prop}

theorem keeps (h : Alone m p post) : Keeps m p (fun _ => p) post := h

theorem of_ok {a : α} (hrun : p m = .ok a m') (hreach : m.Reaches m') (hpost : post m' a) :
    Alone m p post :=
  ⟨m', hreach, fun _ _ => rfl, .inl ⟨a, hrun, hpost⟩⟩

/-- A run that leaves frames, objects and actions alone. -/
theorem of_same (h : m.Tidy) {a : α} (hrun : p m = .ok a m') (hframes : m'.frames = m.frames)
    (hheap : m'.heap = m.heap) (hactions : m'.actions = m.actions)
    (hcurrent : m'.current = m.current) : Alone m p fun _ _ => True := by
  obtain ⟨earlier, tidy⟩ := h.of_same hframes hheap (hactions ▸ h.host)
    (hcurrent ▸ h.current_lt) (hcurrent ▸ h.isSealed.current)
  exact of_ok hrun ⟨earlier, tidy, hcurrent⟩ trivial

protected theorem pure (h : m.Tidy) {a : α} (hpost : post m a) : Alone m (pure a) post :=
  Keeps.pure h hpost

protected theorem throw (h : m.Tidy) (interrupt : Interrupt) : Alone m (throw interrupt) post :=
  Keeps.throw h interrupt

protected theorem fault (h : m.Tidy) (line : Nat) (fault : Fault) :
    Alone m (Run.fault line fault) post :=
  Keeps.fault h line fault

protected theorem bind (h : Alone m p post) {f : α → Run β} {post' : Machine → β → Prop}
    (hf : ∀ m' a, m.Reaches m' → post m' a → Alone m' (f a) post') : Alone m (p >>= f) post' :=
  Keeps.bind h hf

protected theorem get {f : Machine → Run α} (h : Alone m (f m) post) : Alone m (get >>= f) post := h

end Alone

end Lox
