import Lox.Proofs.Machine.Rules

/-!
# Runs stay where they should be

With the rules safe, so is everything that is run by them, however deep (`evaluates`, `executes`), and
so is a program outside of all scopes (`interpret_safe`): it goes the same way when it is watched.
-/

namespace Lox

namespace Run

variable {α : Type} {promise : Code → Machine → Prop} {m m' : Machine}

theorem watch_ok {code : Code} {p : Run α} {a : α} (h : promise code m) (hrun : p m = .ok a m')
    (h' : promise code m') : watch promise code p m = .ok a m' := by
  simp only [watch, if_pos h, hrun, if_pos h']

theorem watch_error {code : Code} {p : Run α} {interrupt : Interrupt} (h : promise code m)
    (hrun : p m = .error interrupt m') : watch promise code p m = .error interrupt m' := by
  simp only [watch, if_pos h, hrun]

variable {fuel : Nat} {first : Stmt}

theorem interpret_ok (more : List Stmt) {completion : Completion}
    (h : execute fuel first m = .ok completion m') :
    interpret fuel (first :: more) m = interpret fuel more m' := by
  simp only [interpret, h]

theorem interpret_error (more : List Stmt) {interrupt : Interrupt}
    (h : execute fuel first m = .error interrupt m') :
    interpret fuel (first :: more) m = .error interrupt { m' with current := Frames.globalId } := by
  simp only [interpret, h]

theorem interpretWatched_ok (more : List Stmt) {completion : Completion}
    (h : executeWatched promise fuel first m = .ok completion m') :
    interpretWatched promise fuel (first :: more) m = interpretWatched promise fuel more m' := by
  simp only [interpretWatched, h]

theorem interpretWatched_error (more : List Stmt) {interrupt : Interrupt}
    (h : executeWatched promise fuel first m = .error interrupt m') :
    interpretWatched promise fuel (first :: more) m =
      .error interrupt { m' with current := Frames.globalId } := by
  simp only [interpretWatched, h]

end Run

open Layout

variable {α : Type} {setting : Setting} {σ : Layout}

/-- The occurrence that an expression is is bound with it. -/
theorem Expr.Bound.own {record : Record} {scopes : List Scope} {e : Expr}
    (h : e.Bound record scopes) : ∀ o ∈ (Code.expression e).occurrence?, o.Bound record scopes := by
  intro o ho
  refine h o ?_
  cases e <;> cases ho <;> exact List.mem_cons_self

/-- A promise for each piece of code that lies where the scopes around it belong to the current frame. -/
def Warranted (setting : Setting) (promise : Labels → Code → Machine → Prop) : Prop :=
  ∀ (σ : Layout) (path : List Opener) (scopes : List Scope) (code : Code), σ.Good setting →
    σ.Runs σ.machine.current path scopes → (∀ o ∈ code.occurrence?, o.Bound setting.record scopes) →
    Lies setting.units path code → ∀ labels, σ.Agrees labels → promise labels code σ.machine

/-- Where the scopes around a piece of code belong to the current frame, the code is placed. -/
theorem placed (setting : Setting) :
    Warranted setting fun labels => Placed labels setting.units := by
  intro σ path scopes code hgood hruns hbound hlies labels hlabels
  refine ⟨path, hlies, hruns.around hlabels, fun o ho d hd => ?_⟩
  rw [hgood.distances o.id] at hd
  exact hruns.leads hlabels (hbound o ho) hd

variable {promise : Labels → Code → Machine → Prop}

/-- Watching changes nothing where the promise is kept. -/
theorem watch_safe {p : Run α} {q : Labels → Run α} {post : Layout → α → Prop} {code : Code}
    (hgood : σ.Good setting)
    (hkept : ∀ σ', Reaches setting σ σ' → ∀ labels, σ'.Agrees labels → promise labels code σ'.machine)
    (h : Safe setting σ p q post) :
    Safe setting σ p (fun labels => Run.watch (promise labels) code (q labels)) post := by
  obtain ⟨σ', hreach, hsame, hend⟩ := h
  refine ⟨σ', hreach, fun labels hlabels => ?_, hend⟩
  have before := hkept σ hgood.reaches labels (hreach.grows.agrees hlabels)
  have behind := hkept σ' hreach labels hlabels
  have same := hsame labels hlabels
  rcases hend with ⟨a, hrun, -⟩ | ⟨interrupt, hrun, -⟩
  · rw [hrun]
    exact Run.watch_ok before (same.trans hrun) behind
  · rw [hrun]
    exact Run.watch_error before (same.trans hrun)

mutual

/-- Expressions are evaluated where they should be. -/
theorem evaluates (hpromise : Warranted setting promise) : ∀ fuel,
    Evaluates setting (Run.evaluate fuel) fun labels => Run.evaluateWatched (promise labels) fuel
  | 0 => fun _ _ _ _ hgood _ _ _ => .throw hgood nofun
  | fuel + 1 => by
    intro σ path scopes e hgood hruns hbound hlies
    have rule := evaluateRule_safe (evaluates hpromise fuel) (executes hpromise fuel)
    refine watch_safe hgood ?_ (rule σ path scopes e hgood hruns hbound hlies)
    exact fun σ' hreach => hpromise σ' path scopes _ hreach.good (hreach.runs hruns) hbound.own hlies

/-- Statements are carried out where they should be. -/
theorem executes (hpromise : Warranted setting promise) : ∀ fuel,
    Executes setting (Run.execute fuel) fun labels => Run.executeWatched (promise labels) fuel
  | 0 => fun _ _ _ _ hgood _ _ _ _ => .throw hgood nofun
  | fuel + 1 => by
    intro σ path scopes t hgood hruns hbound hlies hfits
    have rule := executeRule_safe (evaluates hpromise fuel) (executes hpromise fuel)
    refine watch_safe hgood ?_ (rule σ path scopes t hgood hruns hbound hlies hfits)
    have own : ∀ o ∈ (Code.statement t).occurrence?, o.Bound setting.record scopes :=
      fun _ ho => absurd ho (Option.not_mem_none _)
    exact fun σ' hreach => hpromise σ' path scopes _ hreach.good (hreach.runs hruns) own hlies

end

/-- The statements of a program are carried out where they should be. -/
theorem interpret_safe (hpromise : Warranted setting promise) (fuel : Nat) (program : List Stmt)
    (hgood : σ.Good setting)
    (hcurrent : σ.machine.current = Frames.globalId)
    (hbound : Stmt.BoundAll setting.record [] program)
    (hunits : ∀ t ∈ program, .statement t ∈ setting.units) :
    Safe setting σ (Run.interpret fuel program)
      (fun labels => Run.interpretWatched (promise labels) fuel program)
      (fun _ _ => True) := by
  induction program generalizing σ with
  | nil => exact .pure hgood trivial
  | cons first more ih =>
    have outside : σ.Runs σ.machine.current [] [] := hcurrent ▸ .global
    obtain ⟨σ', hreach, hsame, hend⟩ := executes hpromise fuel σ [] [] first hgood outside hbound.1
      (.unit (hunits _ List.mem_cons_self)) fun _ _ _ h => nomatch h
    rcases hend with ⟨completion, hrun, -⟩ | ⟨interrupt, hrun, hinterrupt⟩
    · have hmore : Stmt.BoundAll setting.record [] more := by
        have : first.after [] = [] := by
          unfold Stmt.after
          cases first.declared? <;> rfl
        exact this ▸ hbound.2
      obtain ⟨σ'', hreach', hsame', hend'⟩ := ih hreach.good (hreach.current.trans hcurrent) hmore
        fun t ht => hunits t (List.mem_cons_of_mem _ ht)
      have run := Run.interpret_ok more hrun
      refine ⟨σ'', hreach.trans hreach', fun labels hlabels => ?_, by rwa [run]⟩
      have same := hsame labels (hreach'.grows.agrees hlabels)
      exact (Run.interpretWatched_ok more (same.trans hrun)).trans
        ((hsame' labels hlabels).trans run.symm)
    · have run := Run.interpret_error more hrun
      have back : { σ'.machine with current := Frames.globalId } = σ'.machine := by
        rw [← hcurrent, ← hreach.current]
      rw [back] at run
      refine ⟨σ', hreach, fun labels hlabels => ?_, .inr ⟨interrupt, run, hinterrupt⟩⟩
      have same := hsame labels hlabels
      have watched := Run.interpretWatched_error more (same.trans hrun)
      rw [back] at watched
      exact watched.trans run.symm

end Lox
