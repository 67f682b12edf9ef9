import Lox.Proofs.Trace.Calm
import Lox.Proofs.Trace.Evaluation

/-!
# Paths of a run

From the machine on which a run starts to the one on which it ends, a trace leads along its moments
(`Path`). Between two moments all changes are calm, and at a moment only the field that is written
changes. What happens is *proper*: the code that is started is well formed, the names that are declared
are not that of the receiver, and what is written to a field fits.

So along a path a field holds what it holds until it is written (`Path.field`).
-/

namespace Lox

open Machine

variable {α β : Type} {m m' m'' : Machine}

/-! ## Moments -/

/-- The code is well formed. -/
def Code.Formed : Code → Prop
  | .expression value => value.Formed
  | .statement t => t.Formed

namespace Moment

/-- What happens at a moment is as it should be. -/
def IsProper (moment : Moment) : Prop :=
  match moment.happening with
  | .starts code => code.Formed
  | .writes _ => True
  | .sets id _ value => id < moment.machine.heap.nextId ∧ moment.machine.Fit value
  | .declares names => receiverName ∉ names

/-- The machine just behind a moment, before anything else changes. -/
def Leads (moment : Moment) (m : Machine) : Prop :=
  match moment.happening with
  | .sets id name value => ∃ kept m', Run.stored id value moment.machine = .ok kept m' ∧
      moment.machine.Calm m' ∧ m'.Fit kept ∧ m = m'.setField id name kept
  | _ => m = moment.machine

/-- The field is written at the moment. -/
def Writes (moment : Moment) (id : ObjectId) (name : String) : Prop :=
  ∃ value, moment.happening = .sets id name value

/-- What happens at a moment changes no field but the one that is written. -/
theorem Leads.changes {moment : Moment} (h : moment.Leads m) (horderly : moment.machine.Orderly) :
    moment.machine.Earlier m ∧ m.Orderly ∧ ∀ id < moment.machine.heap.nextId, ∀ name,
      ¬moment.Writes id name → m.heap.field? id name = moment.machine.heap.field? id name := by
  obtain ⟨machine, happening⟩ := moment
  cases happening with
  | sets id name value =>
    obtain ⟨kept, m', -, hcalm, hkept, rfl⟩ := h
    refine ⟨hcalm.earlier.trans (.setField m' id name kept), hcalm.orderly.setField hkept, ?_⟩
    intro other hother key hwrites
    rw [Machine.setField, Heap.field?_setField, if_neg, hcalm.fields other hother key]
    rintro ⟨rfl, rfl, -⟩
    exact hwrites ⟨value, rfl⟩
  | _ =>
    obtain rfl : m = machine := h
    exact ⟨.refl m, horderly, fun _ _ _ _ => rfl⟩

end Moment

/-! ## Paths -/

/-- The moments lead from one machine to another. -/
inductive Path : Machine → List Moment → Machine → Prop
  | calm {m m' : Machine} : m.Calm m' → Path m [] m'
  | moment {m k m' : Machine} {moment : Moment} {trace : List Moment} : m.Calm moment.machine →
      moment.IsProper → moment.Leads k → Path k trace m' → Path m (moment :: trace) m'

namespace Path

variable {trace trace' : List Moment}

theorem earlier (h : Path m trace m') : m.Earlier m' := by
  induction h with
  | calm h => exact h.earlier
  | moment hcalm _ hleads _ ih =>
    exact hcalm.earlier.trans ((hleads.changes hcalm.orderly).1.trans ih)

theorem orderly (h : Path m trace m') : m'.Orderly := by
  induction h with
  | calm h => exact h.orderly
  | moment _ _ _ _ ih => exact ih

theorem proper (h : Path m trace m') : ∀ moment ∈ trace, moment.IsProper := by
  induction h with
  | calm _ => exact nofun
  | moment _ hproper _ _ ih => exact List.forall_mem_cons.mpr ⟨hproper, ih⟩

/-- A field that is not written holds what it held. -/
theorem field (h : Path m trace m') {id : ObjectId} (hid : id < m.heap.nextId) {name : String}
    (hwrites : ∀ moment ∈ trace, ¬moment.Writes id name) :
    m'.heap.field? id name = m.heap.field? id name := by
  induction h with
  | calm h => exact h.fields id hid name
  | moment hcalm _ hleads _ ih =>
    -- the object is still there at each moment, so that no change in between is to its field
    obtain ⟨hmoment, htrace⟩ := List.forall_mem_cons.mp hwrites
    obtain ⟨earlier, -, hfields⟩ := hleads.changes hcalm.orderly
    have there := Nat.lt_of_lt_of_le hid hcalm.earlier.objects_le
    rw [ih (Nat.lt_of_lt_of_le there earlier.objects_le) htrace, hfields id there name hmoment,
      hcalm.fields id hid name]

theorem after_calm (hcalm : m.Calm m') (h : Path m' trace m'') : Path m trace m'' := by
  cases h with
  | calm h => exact .calm (hcalm.trans h)
  | moment h hproper hleads htrace => exact .moment (hcalm.trans h) hproper hleads htrace

theorem append (h : Path m trace m') (h' : Path m' trace' m'') : Path m (trace ++ trace') m'' := by
  induction h with
  | calm h => exact h'.after_calm h
  | moment hcalm hproper hleads _ ih => exact .moment hcalm hproper hleads (ih h')

/-- A path leads to each of its moments, and on from there. -/
theorem split {before after : List Moment} {moment : Moment}
    (h : Path m (before ++ moment :: after) m') :
    Path m before moment.machine ∧ moment.IsProper ∧ ∃ k, moment.Leads k ∧ Path k after m' := by
  generalize htrace : before ++ moment :: after = trace at h
  induction h generalizing before with
  | calm _ => simp at htrace
  | moment hcalm hproper hleads hpath ih =>
    -- what is calm in front of the first moment belongs to the way there
    cases before with
    | nil =>
      obtain ⟨rfl, rfl⟩ := List.cons.inj htrace
      exact ⟨.calm hcalm, hproper, _, hleads, hpath⟩
    | cons first before =>
      obtain ⟨rfl, hmore⟩ := List.cons.inj htrace
      obtain ⟨hbefore, hrest⟩ := ih hmore
      exact ⟨.moment hcalm hproper hleads hbefore, hrest⟩

/-- The machine of each moment is orderly. -/
theorem orderly_of_mem (h : Path m trace m') {moment : Moment} (hmoment : moment ∈ trace) :
    moment.machine.Orderly := by
  obtain ⟨before, after, rfl⟩ := List.append_of_mem hmoment
  exact h.split.1.orderly

end Path

/-! ## Runs along their traces -/

/-- The trace of the run leads along a path, what the run gives is as it should be, and it does not stop
for an operator that is none. -/
def Upholds (m : Machine) (t : Traced α) (post : Machine → α → Prop) : Prop :=
  ∃ m', Path m (t.trace m) m' ∧
    ((∃ a, t.run m = .ok a m' ∧ post m' a) ∨
      ∃ interrupt, t.run m = .error interrupt m' ∧ interrupt.IsProper)

namespace Upholds

variable {t : Traced α} {post : Machine → α → Prop}

protected theorem pure (h : m.Orderly) {a : α} (hpost : post m a) :
    Upholds m (pure a : Traced α) post :=
  ⟨m, .calm h.calm, .inl ⟨a, rfl, hpost⟩⟩

/-- A silent run in which nothing happens. -/
theorem silent {p : Run α} {hp : Silent p} (h : Ends m p post) : Upholds m (.silent p hp) post := by
  obtain ⟨m', hcalm, hend⟩ := h
  exact ⟨m', .calm hcalm, hend⟩

/-- A run at whose start something happens, but no field is written. -/
theorem of_single {what : Happening} (horderly : m.Orderly) (htrace : t.trace m = [⟨m, what⟩])
    (hproper : Moment.IsProper ⟨m, what⟩) (hleads : Moment.Leads ⟨m, what⟩ m) (h : Ends m t.run post) :
    Upholds m t post := by
  obtain ⟨m', hcalm, hend⟩ := h
  refine ⟨m', ?_, hend⟩
  rw [htrace]
  exact .moment horderly.calm hproper hleads (.calm hcalm)

protected theorem bind (h : Upholds m t post) {f : α → Traced β} {post' : Machine → β → Prop}
    (hf : ∀ m' a, m.Earlier m' → m'.Orderly → post m' a → Upholds m' (f a) post') :
    Upholds m (t >>= f) post' := by
  obtain ⟨m', hpath, ⟨a, hrun, ha⟩ | ⟨interrupt, hrun, hproper⟩⟩ := h
  · obtain ⟨m'', hpath', hend⟩ := hf m' a hpath.earlier hpath.orderly ha
    refine ⟨m'', ?_, ?_⟩
    · show Path m (Accounts.follow t.run t.trace (fun a => (f a).trace) m) m''
      rw [Accounts.follow_ok hrun]
      exact hpath.append hpath'
    · have run : (t >>= f).run m = (f a).run m' := Run.bind_ok hrun _
      rwa [run]
  · refine ⟨m', ?_, .inr ⟨interrupt, Run.bind_error hrun _, hproper⟩⟩
    show Path m (Accounts.follow t.run t.trace (fun a => (f a).trace) m) m'
    rw [Accounts.follow_error hrun]
    exact hpath

/-- A piece of code that is well formed is started. -/
theorem starting {code : Code} (horderly : m.Orderly) (hcode : code.Formed) (h : Upholds m t post) :
    Upholds m (.starting code t) post := by
  have started : Upholds m (.noted (.starts code) (pure ()) rfl (.pure ())) fun m' _ => m' = m :=
    of_single horderly rfl hcode rfl (.pure horderly rfl)
  refine started.bind ?_
  rintro _ _ - - rfl
  exact h

/-- Names are declared, but not that of the receiver. -/
theorem declaring {names : List String} {hwhat : (Happening.declares names).text = ""} {p : Run α}
    {hp : Silent p} (horderly : m.Orderly) (hnames : receiverName ∉ names) (h : Ends m p post) :
    Upholds m (.noted (.declares names) p hwhat hp) post :=
  of_single horderly rfl hnames rfl h

/-- A text is written. -/
theorem write (horderly : m.Orderly) (text : String) : Upholds m (.write text) fun _ _ => True :=
  of_single horderly rfl trivial rfl (write_ends horderly text)

/-- A field of an object is written. -/
theorem setProperty (horderly : m.Orderly) {id : ObjectId} (hid : id < m.heap.nextId) (name : Token)
    {value : Value} (hvalue : m.Fit value) :
    Upholds m (.setProperty id name value) fun _ _ => True := by
  obtain ⟨m', kept, hstored, hcalm, hkept, -⟩ := stored_ok horderly id hvalue
  have written : Run.setProperty id name value m = .ok () (m'.setField id name.lexeme kept) :=
    Run.bind_ok hstored _
  refine ⟨m'.setField id name.lexeme kept, ?_, .inl ⟨(), written, trivial⟩⟩
  exact .moment horderly.calm ⟨hid, hvalue⟩ ⟨kept, m', hstored, hcalm, hkept, rfl⟩
    (.calm (hcalm.orderly.setField hkept).calm)

/-- What runs in another frame comes back. -/
theorem inFrame (horderly : m.Orderly) {frame : FrameId} (hframe : frame < m.frames.nextId)
    (h : m.Earlier (m.inside frame) → (m.inside frame).Orderly → Upholds (m.inside frame) t post)
    (hpost : ∀ m' a current, m'.Earlier (m'.inside current) → post m' a →
      post (m'.inside current) a) :
    Upholds m (.inFrame frame t) post := by
  have entered : m.Calm (m.inside frame) := horderly.of_same rfl rfl horderly.host hframe
  obtain ⟨m', hpath, hend⟩ := h entered.earlier entered.orderly
  have back : m'.Calm (m'.inside m.current) := by
    refine hpath.orderly.of_same rfl rfl hpath.orderly.host ?_
    exact Nat.lt_of_lt_of_le horderly.current_lt (entered.earlier.trans hpath.earlier).nextId_le
  refine ⟨m'.inside m.current, ?_, ?_⟩
  · have whole := (hpath.append (.calm back)).after_calm entered
    rwa [List.append_nil] at whole
  · rcases hend with ⟨a, hrun, ha⟩ | ⟨interrupt, hrun, hproper⟩
    · exact .inl ⟨a, Run.inFrame_ok hrun, hpost m' a _ back.earlier ha⟩
    · exact .inr ⟨interrupt, Run.inFrame_error hrun, hproper⟩

end Upholds

end Lox
