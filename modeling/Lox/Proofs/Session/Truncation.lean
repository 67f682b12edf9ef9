import Lox.Proofs.Session.Tracing

/-!
# A full output only truncates

A unit can be run with an output that takes everything, or with one that is full after so many ends of
lines. Up to the first moment at which something is written to the full output, the two runs go the same
way. There the limited one stops, with what it has printed and changed by then, and nothing is started
any more; and if there is no such moment, the two runs are the same (`output_truncates`).
-/

namespace Lox

variable {α β : Type}

namespace Session

/-- The session with another limit of its output. -/
def withLimit (session : Session) (limit : Option Nat) : Session :=
  { session with machine := session.machine.withSink { session.machine.sink with limit := limit } }

end Session

/-- A unit on an output that is full after `n` ends of lines ends as `limited`, and as `free` on one that
takes everything. What happens is `trace'` and `trace`. -/
structure Truncates (n : Nat) (free limited : Outcome α × Session) (trace trace' : List Moment) :
    Prop where
  /-- What is printed is the beginning of what would be printed. -/
  printed : ∃ rest, free.2.printed = limited.2.printed ++ rest
  /-- If nothing is written to the full output, nothing differs. -/
  whole : (∀ moment ∈ trace, ¬moment.Refused n) →
    limited.1 = free.1 ∧ limited.2 = free.2.withLimit (some n) ∧ limited.2.printed = free.2.printed ∧
      trace' = trace.map (·.limited n)
  /-- The first text that the full output refuses stops the run on the spot: all is as it was then, but
  for the current frame, and this is the last that happens. -/
  cut : ∀ before moment after, trace = before ++ moment :: after →
    (∀ earlier ∈ before, ¬earlier.Refused n) → moment.Refused n →
    limited.1 = .failed (.stopped Sink.refusal) ∧
      (∃ current, limited.2.machine = Machine.limited { moment.machine with current := current } n) ∧
      limited.2.nextId = free.2.nextId ∧ trace' = (before ++ [moment]).map (·.limited n) ∧
      n ≤ limited.2.printed.toList.count '\n' ∧ (n = 0 → limited.2.printed = "")

/-! ## The first refusal -/

/-- Where something holds of a member of a list, it holds of a first one. -/
theorem first_or_none {γ : Type} (p : γ → Prop) (l : List γ) :
    (∀ x ∈ l, ¬p x) ∨ ∃ before x after, l = before ++ x :: after ∧ (∀ y ∈ before, ¬p y) ∧ p x := by
  induction l with
  | nil => exact .inl nofun
  | cons x l ih =>
    by_cases hx : p x
    · exact .inr ⟨[], x, l, rfl, nofun, hx⟩
    · rcases ih with hnone | ⟨before, y, after, rfl, hbefore, hy⟩
      · exact .inl (List.forall_mem_cons.mpr ⟨hx, hnone⟩)
      · exact .inr ⟨x :: before, y, after, rfl, List.forall_mem_cons.mpr ⟨hx, hbefore⟩, hy⟩

/-- An output that takes no line at all refuses every text. -/
theorem written_of_refused_zero {trace : List Moment} (h : ∀ moment ∈ trace, ¬moment.Refused 0) :
    written trace = "" :=
  written_eq_empty fun moment hmoment =>
    not_not.mp fun htext => h moment hmoment ⟨htext, Nat.zero_le _⟩

/-! ## Units -/

section

variable {back : Machine → FrameId} {nextId : OccurrenceId} {n : Nat}

theorem printed_settle (result : EStateM.Result Interrupt Machine β) :
    (settle back nextId result).2.printed = (Run.last result).sink.text := by
  cases result <;> rfl

theorem settle_limited (hback : ∀ m, back (m.limited n) = back m)
    (result : EStateM.Result Interrupt Machine β) :
    settle back nextId (Run.through (·.limited n) result) =
      ((settle back nextId result).1, (settle back nextId result).2.withLimit (some n)) := by
  cases result with
  | ok b m => rfl
  | error interrupt m =>
    show (_, (⟨{ m.limited n with current := back (m.limited n) }, nextId⟩ : Session)) = _
    rw [hback]
    rfl

/-- From an empty output on, a run that its trace accounts for is truncated by a full output. -/
theorem Accounts.truncates {run : Run β} {trace : Machine → List Moment} (h : Accounts run trace)
    {m : Machine} (hm : m.sink = ⟨none, ""⟩) (hback : ∀ m, back (m.limited n) = back m) :
    Truncates n (settle back nextId (run m)) (settle back nextId (run (m.limited n))) (trace m)
      (trace (m.limited n)) := by
  have free : m.sink.limit = none := congrArg Sink.limit hm
  have whole (haccepted : ∀ moment ∈ trace m, ¬moment.Refused n) :
      (settle back nextId (run (m.limited n))).1 = (settle back nextId (run m)).1 ∧
        (settle back nextId (run (m.limited n))).2 =
          (settle back nextId (run m)).2.withLimit (some n) ∧
        trace (m.limited n) = (trace m).map (·.limited n) := by
    obtain ⟨hrun, htrace⟩ := h.whole m n free haccepted
    rw [hrun, settle_limited hback]
    exact ⟨rfl, rfl, htrace⟩
  have printed_cut {before after : List Moment} {moment : Moment}
      (hsplit : trace m = before ++ moment :: after) (haccepted : ∀ earlier ∈ before, ¬earlier.Refused n)
      (hrefused : moment.Refused n) :
      (settle back nextId (run (m.limited n))).2.printed = written before := by
    rw [printed_settle, (h.cut m n free before moment after hsplit haccepted hrefused).1]
    show moment.machine.sink.text = _
    rw [h.outputAt m free before moment after hsplit, hm]
    exact String.empty_append
  refine ⟨?_, fun haccepted => ?_, fun before moment after hsplit haccepted hrefused => ?_⟩
  · -- up to the first refusal, both outputs hold the same
    rcases first_or_none (·.Refused n) (trace m) with
      haccepted | ⟨before, moment, after, hsplit, haccepted, hrefused⟩
    · refine ⟨"", ?_⟩
      rw [(whole haccepted).2.1, String.append_empty]
      rfl
    · refine ⟨written (moment :: after), ?_⟩
      rw [printed_cut hsplit haccepted hrefused, printed_settle, h.output m free, hm, ← written_append,
        hsplit]
      exact String.empty_append
  · obtain ⟨houtcome, hsession, htrace⟩ := whole haccepted
    refine ⟨houtcome, hsession, ?_, htrace⟩
    rw [hsession]
    rfl
  · -- what the full output holds is what was written before the refusal
    have printed := printed_cut hsplit haccepted hrefused
    obtain ⟨hrun, htrace⟩ := h.cut m n free before moment after hsplit haccepted hrefused
    have held : moment.machine.sink.text = written before := by
      rw [h.outputAt m free before moment after hsplit, hm]
      exact String.empty_append
    refine ⟨?_, ?_, ?_, htrace, ?_, ?_⟩
    · rw [hrun]
      rfl
    · rw [hrun]
      exact ⟨_, rfl⟩
    · cases run m <;> cases run (m.limited n) <;> rfl
    · rw [printed, ← held]
      exact hrefused.2
    · rintro rfl
      rw [printed, written_of_refused_zero haccepted]

/-- A full output truncates a unit that runs as it is traced. -/
theorem perform_truncates {traced : α → Traced β} {action : α → Run β}
    (h : Tracks back traced action) (hback : ∀ m, back (m.limited n) = back m) (session : Session)
    (checked : Checked α) :
    Truncates n ((session.withLimit none).perform checked action)
      ((session.withLimit (some n)).perform checked action)
      (checked.moments traced (session.withLimit none).idle)
      (checked.moments traced (session.withLimit (some n)).idle) := by
  cases hresult : checked.result with
  | error diagnostics =>
    rw [perform_rejected hresult, perform_rejected hresult]
    simp only [Checked.moments, hresult]
    exact ⟨⟨"", rfl⟩, fun _ => ⟨rfl, rfl, rfl, rfl⟩, fun before _ _ h => by simp at h⟩
  | ok unit =>
    obtain ⟨tree, distances⟩ := unit
    rw [perform_settles h hresult, perform_settles h hresult]
    simp only [Checked.moments, hresult]
    exact (traced tree).accounts.truncates rfl hback

end

/-- A full output only truncates. Whatever a session is given to run or to evaluate, an output that is
full after `n` ends of lines makes no difference until something is written to the full output. This
fails as an output fails, and nothing happens behind it. -/
theorem output_truncates (fuel : Nat) (session : Session) (source : String) (n : Nat) :
    let free := session.withLimit none
    let limited := session.withLimit (some n)
    Truncates n (free.run fuel source) (limited.run fuel source) (free.moments (.run fuel source))
        (limited.moments (.run fuel source)) ∧
      Truncates n (free.evaluate fuel source) (limited.evaluate fuel source)
        (free.moments (.evaluate fuel source)) (limited.moments (.evaluate fuel source)) ∧
      (Failure.stopped Sink.refusal).exitCode = 74 :=
  ⟨perform_truncates (interpret_tracks fuel) (fun _ => rfl) session _,
    perform_truncates (evaluate_tracks fuel) (fun _ => rfl) session _, rfl⟩

end Lox
