import Lox.Proofs.Machine.Output
import Lox.Proofs.Session.Restoring
import Lox.Proofs.Session.Twins
import Lox.Proofs.Token.Joining

/-!
# To evaluate and to print

An expression can be evaluated as a unit, or printed by a program of one statement. The two units go
through different parsers and resolvers, and yet the expression is the same tree in both, with the same
identities and distances (`checkProgram_printing`). So both end alike, and what the program prints behind
all that the expression printed is its value (`evaluate_printed`).
-/

namespace Lox

variable {α β : Type}

/-- The source of a program that prints the value of an expression. The semicolon is on a line of its
own, for the expression may end in a comment. -/
def printing (source : String) : String := "print " ++ source ++ "\n;"

/-! ## The same tree -/

private theorem words_printing (source : String) :
    Lexer.wordsFrom 1 ("print " ++ source).toList =
      .token ⟨.keyword .printKw, "print", 1⟩ :: Lexer.wordsFrom 1 source.toList := by
  have chars : ("print " ++ source).toList =
      'p' :: 'r' :: 'i' :: 'n' :: 't' :: ' ' :: source.toList := by simp
  have word : segment 'p' ('r' :: 'i' :: 'n' :: 't' :: ' ' :: source.toList) =
      ⟨.kind (.keyword .printKw), "print".toList, ' ' :: source.toList⟩ := rfl
  have blank : segment ' ' source.toList = ⟨.blank, [' '], source.toList⟩ := rfl
  rw [chars, Lexer.wordsFrom_cons, word, Lexer.wordsFrom_cons, blank]
  rfl

private theorem items_of_semicolon :
    itemsOf ";" = [.token ⟨.symbol .semicolon, ";", 1⟩, .token (.eof 1)] := by
  rw [itemsOf_eq_itemsWithin]
  rfl

theorem printing_eq (source : String) : printing source = "print " ++ source ++ "\n" ++ ";" := by
  have line : "\n;" = "\n" ++ ";" := rfl
  rw [printing, line, ← String.append_assoc]

/-- The keyword and the blank in front of an expression are right in themselves. -/
theorem lexicalIssuesOf_print {source : String} (h : lexicalIssuesOf source = []) :
    lexicalIssuesOf ("print " ++ source) = [] := by
  rw [lexicalIssuesOf_eq] at h ⊢
  rw [words_printing]
  exact h

theorem lexicalIssuesOf_printing {source : String} (h : lexicalIssuesOf source = []) :
    lexicalIssuesOf (printing source) = [] := by
  have semicolon : lexicalIssuesOf ";" = [] := by
    rw [lexicalIssuesOf, items_of_semicolon]
    rfl
  rw [printing_eq]
  exact lexicalIssuesOf_join_nil (lexicalIssuesOf_print h) semicolon

/-- The tokens of an expression are there, on the same lines, between the keyword and the semicolon. -/
theorem wordsOf_printing {source : String} (h : lexicalIssuesOf source = []) :
    ∃ line, wordsOf (printing source) =
      ⟨.keyword .printKw, "print", 1⟩ :: wordsOf source ++ [⟨.symbol .semicolon, ";", line⟩] := by
  have keyword : wordsOf ("print " ++ source) =
      ⟨.keyword .printKw, "print", 1⟩ :: wordsOf source := by
    rw [wordsOf_eq, wordsOf_eq, words_printing]
    rfl
  have semicolon : wordsOf ";" = [⟨.symbol .semicolon, ";", 1⟩] := by
    rw [wordsOf, tokensOf, items_of_semicolon]
    rfl
  refine ⟨1 + linesOf ("print " ++ source), ?_⟩
  rw [printing_eq, wordsOf_join (stringsClosed_of_quiet (lexicalIssuesOf_print h)), keyword, semicolon]
  rfl

/-- An expression that passes its checks does so in the program that prints it, with the same identities
and distances. -/
theorem checkProgram_printing {n : OccurrenceId} {source : String} {value : Expr}
    {distances : Distances}
    (h : (checkExpression n source).result = .ok (value, distances)) :
    checkProgram n (printing source) =
      ⟨.ok ([.print value], distances), (checkExpression n source).nextId⟩ := by
  obtain ⟨hlexical, hparsed, hresolved⟩ := check_ok h
  have reads : ReadsExpr .whole n (wordsOf source) value (checkExpression n source).nextId :=
    parseExpression_eq_ok.mp hparsed
  obtain ⟨line, words⟩ := wordsOf_printing hlexical
  refine check_eq (lexicalIssuesOf_printing hlexical) (parseProgram_eq_ok.mpr ?_) hresolved
  show ReadsDeclarations n (wordsOf (printing source)) _ _
  rw [words, ← List.append_nil (_ :: _ ++ _)]
  exact .cons (.statement (.print rfl reads rfl)) .nil

/-! ## The same run -/

namespace Run

section

variable {fuel : Nat} {value : Expr} {m m' : Machine}

/-- To print is to evaluate and then to write the value and the end of the line. -/
theorem execute_print_ok {v : Value} (h : evaluate fuel value m = .ok v m')
    (hlimit : m'.sink.limit = none) :
    execute (fuel + 1) (.print value) m = .ok .normal (m'.saying (v.text m'.heap ++ "\n")) := by
  have limit : (m'.saying (v.text m'.heap)).sink.limit = none := hlimit
  show (evaluate fuel value >>= _) m = _
  rw [bind_ok h, ← Machine.saying_saying]
  refine (bind_ok (rfl : (get : Run Machine) m' = .ok m' m') _).trans ?_
  exact (bind_ok (write_unlimited hlimit _) _).trans (bind_ok (write_unlimited limit _) _)

theorem execute_print_error {interrupt : Interrupt}
    (h : evaluate fuel value m = .error interrupt m') :
    execute (fuel + 1) (.print value) m = .error interrupt m' :=
  bind_error h _

end

end Run

/-! ## The same session -/

/-- What is printed of the outcome of an evaluation: a value, if there is one. -/
def Outcome.shown (heap : Heap) : Outcome Value → String
  | .done value => value.text heap ++ "\n"
  | .failed _ | .strayed | .exhausted => ""

/-- A program ends as an evaluation does, and prints the value behind all that the evaluation prints. -/
structure Prints (evaluated : Outcome Value × Session) (ran : Outcome Unit × Session) : Prop where
  outcome : ran.1 = evaluated.1.map fun _ => ()
  printed : ran.2.printed = evaluated.2.printed ++ evaluated.1.shown evaluated.2.machine.heap

/-- The sessions are the same but for what was printed. -/
structure SameButPrinted (s s' : Session) : Prop where
  idle : s'.idle = s.idle
  nextId : s'.nextId = s.nextId

section

variable {s : Session} {source : String} {value : Expr} {distances : Distances}

/-- What passes its checks is not rejected. -/
theorem ne_rejected_of_passed {checked : Checked α} {unit : α × Distances}
    (h : checked.result = .ok unit) (action : α → Run β) (diagnostics : List Diagnostic) :
    (s.perform checked action).1 ≠ .failed (.rejected diagnostics) := by
  cases hrun : action unit.1 (s.idle.adopt unit.2) with
  | ok b m =>
    rw [perform_done h hrun]
    nofun
  | error interrupt m =>
    rw [perform_interrupted h hrun]
    cases interrupt <;> nofun

/-- What is not rejected passes its checks. -/
theorem passed_of_ne_rejected {checked : Checked α} {action : α → Run β}
    (h : ∀ diagnostics, (s.perform checked action).1 ≠ .failed (.rejected diagnostics)) :
    ∃ tree distances, checked.result = .ok (tree, distances) := by
  cases hresult : checked.result with
  | ok unit => exact ⟨unit.1, unit.2, rfl⟩
  | error diagnostics => exact absurd (congrArg Prod.fst (perform_rejected hresult action)) (h _)

theorem prints_of_passed (hs : s.Rests none)
    (h : (checkExpression s.nextId source).result = .ok (value, distances)) (fuel : Nat) :
    Prints (s.evaluate fuel source) (s.run (fuel + 1) (printing source)) ∧
      SameButPrinted (s.evaluate fuel source).2 (s.run (fuel + 1) (printing source)).2 := by
  have checked := checkProgram_printing h
  have passed := congrArg Checked.result checked
  have nextId := congrArg Checked.nextId checked
  have spared := (Run.evaluate_contained fuel value).spared (s.idle.adopt distances)
  unfold Session.evaluate Session.run
  cases hrun : Run.evaluate fuel value (s.idle.adopt distances) with
  | ok v m =>
    rw [hrun] at spared
    have printed := Run.execute_print_ok hrun (spared.limit.trans hs.limit)
    rw [perform_done h hrun, perform_done passed (Run.interpret_ok [] printed)]
    exact ⟨⟨rfl, rfl⟩, rfl, nextId⟩
  | error interrupt m =>
    rw [hrun] at spared
    have ended := Run.interpret_error [] (Run.execute_print_error hrun)
    -- a program that fails goes back to the global frame, where the expression has come back to
    have current : m.current = Frames.globalId := spared.current.trans hs.current
    have back : { m with current := Frames.globalId } = m := by rw [← current]
    rw [back] at ended
    rw [perform_interrupted h hrun, perform_interrupted passed ended]
    refine ⟨⟨?_, ?_⟩, rfl, nextId⟩
    · cases interrupt <;> rfl
    · cases interrupt <;> exact String.append_empty.symm

/-- Outcomes that show the same are the same, if values that show the same are. -/
theorem Outcome.map_injective {f : α → β} (hf : Function.Injective f) :
    Function.Injective (Outcome.map f) := by
  intro outcome outcome' h
  cases outcome with
  | done a =>
    cases outcome' with
    | done a' => exact congrArg Outcome.done (hf (Outcome.done.inj h))
    | _ => nomatch h
  | failed failure =>
    cases outcome' with
    | failed failure' => exact congrArg Outcome.failed (Outcome.failed.inj h)
    | _ => nomatch h
  | strayed =>
    cases outcome' with
    | strayed => rfl
    | _ => nomatch h
  | exhausted =>
    cases outcome' with
    | exhausted => rfl
    | _ => nomatch h

/-- With other identities for the occurrences to come, what is printed is the same, and the sessions
differ in these identities. -/
theorem prints_renumbered (hs : s.Rests none) (htwin : s.Twins s)
    (h : (checkExpression s.nextId source).result = .ok (value, distances)) (fuel : Nat)
    {n : OccurrenceId} (hle : s.nextId ≤ n) :
    Prints (s.evaluate fuel source) (Session.run (fuel + 1) ⟨s.machine, n⟩ (printing source)) ∧
      (s.evaluate fuel source).2.Twins
        (Session.run (fuel + 1) ⟨s.machine, n⟩ (printing source)).2 := by
  obtain ⟨prints, same⟩ := prints_of_passed hs h fuel
  -- the renumbered program is the twin of the program, which prints as the evaluation does
  have renumbered : s.Twins ⟨s.machine, n⟩ := htwin.later rfl rfl (Nat.le_refl _) hle
  obtain ⟨twins, seen⟩ := run_twins renumbered (fuel + 1) (printing source)
  have seen := Option.some.inj seen
  have outcome : Outcome.map _ _ = Outcome.map _ _ := congrArg Observation.outcome seen
  have printed : Session.printed _ = Session.printed _ := congrArg Observation.printed seen
  refine ⟨⟨?_, printed.trans prints.printed⟩, ?_⟩
  · have same : Function.Injective fun _ : Unit => (none : Option String) := fun _ _ _ => rfl
    exact (Outcome.map_injective same outcome).trans prints.outcome
  · exact twins.later same.idle.symm rfl (Nat.le_of_eq same.nextId) (Nat.le_refl _)

end

/-- Whatever a session has been asked for, an expression that is not rejected is not rejected either in
the program that prints it. If the output has no limit, the program ends as the evaluation does, on the
same line and with the same fault if it fails. It prints what the evaluation prints, with the value behind
it, and leaves the same session. If the identities of its occurrences are other ones, that shows nowhere,
as long as functions of the host do not see code. -/
theorem evaluate_printed (sink : Sink) (world : World) (requests : List Request) (fuel : Nat)
    (source : String)
    (hadmitted : ∀ diagnostics,
      ((requests.foldl Session.handle (.start (.start sink world))).evaluate fuel source).1 ≠
        .failed (.rejected diagnostics)) :
    let s := requests.foldl Session.handle (.start (.start sink world))
    (∀ fuel' diagnostics,
      (s.run fuel' (printing source)).1 ≠ .failed (.rejected diagnostics)) ∧
      (sink.limit = none →
        Prints (s.evaluate fuel source) (s.run (fuel + 1) (printing source)) ∧
          SameButPrinted (s.evaluate fuel source).2 (s.run (fuel + 1) (printing source)).2 ∧
          ((∀ request ∈ requests, request.Blind) → ∀ n, s.nextId ≤ n →
            Prints (s.evaluate fuel source)
                (Session.run (fuel + 1) ⟨s.machine, n⟩ (printing source)) ∧
              (s.evaluate fuel source).2.Twins
                (Session.run (fuel + 1) ⟨s.machine, n⟩ (printing source)).2)) := by
  intro s
  obtain ⟨value, distances, passed⟩ := passed_of_ne_rejected hadmitted
  have program := congrArg Checked.result (checkProgram_printing passed)
  refine ⟨fun fuel' => ne_rejected_of_passed program (Run.interpret fuel'), fun hlimit => ?_⟩
  have rests : s.Rests none := hlimit ▸ after_rests (start_rests sink world) requests
  obtain ⟨prints, same⟩ := prints_of_passed rests passed fuel
  refine ⟨prints, same, fun hblind n hle => ?_⟩
  exact prints_renumbered rests (after_twins (start_twins sink world) hblind) passed fuel hle

/-- A variable with a comment behind it is printed like any other expression, also where numbers have
been used up elsewhere. -/
theorem evaluate_printed_comment :
    (∀ diagnostics,
      (Session.evaluate 1 (.start (.start (.start none) (.start []))) "a//").1 ≠
        .failed (.rejected diagnostics)) ∧
      Prints (Session.evaluate 1 (.start (.start (.start none) (.start []))) "a//")
        (Session.run 2 ⟨.start (.start none) (.start []), 5⟩ (printing "a//")) := by
  have passed : (checkExpression 0 "a//").result = .ok (.var 0 ⟨.identifier, "a", 1⟩, []) := by
    unfold checkExpression check tokensOf lexicalIssuesOf
    rw [itemsOf_eq_itemsWithin]
    rfl
  have admitted : ∀ diagnostics,
      (Session.evaluate 1 (.start (.start (.start none) (.start []))) "a//").1 ≠
        .failed (.rejected diagnostics) :=
    ne_rejected_of_passed passed (Run.evaluate 1)
  have printed := (evaluate_printed (.start none) (.start []) [] 1 "a//" admitted).2 rfl
  exact ⟨admitted, (printed.2.2 (List.forall_mem_nil _) 5 (Nat.zero_le 5)).1⟩

end Lox
