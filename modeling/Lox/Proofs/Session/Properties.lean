import Lox.Proofs.Session.Paths
import Lox.Proofs.Trace.Properties

/-!
# Sessions give back what was written

Wherever a session comes, the properties of the objects there can be written, and they give back what
was written until they are written again, however the session goes on (`properties_given_back`). But a
method that is bound to the object itself is given back as a copy, which is not the same function.
-/

namespace Lox

open Machine

/-- The machine is that of a session at a moment of some requests, or behind them. -/
def History.Visits (h : History) (requests : List Request) (m : Machine) : Prop :=
  (∃ moment ∈ h.moments requests, m = moment.machine) ∨ m = (h.after requests).session.machine

theorem History.Visits.orderly {h : History} {requests : List Request} {m : Machine}
    (horderly : h.session.machine.Orderly) (hrequests : ∀ request ∈ requests, request.Builds)
    (hvisits : h.Visits requests m) : m.Orderly := by
  have path := History.path horderly hrequests
  rcases hvisits with ⟨moment, hmoment, rfl⟩ | rfl
  · exact path.orderly_of_mem hmoment
  · exact path.orderly

/-- A property gives back what was written. Wherever a session comes, what is written to the property of
an object is given back, nothing else is changed, and so it stays until the property is written again,
whatever a session on this machine is asked for. And what a program writes is given back in all that the
session goes on with, until the property is written again. -/
theorem properties_given_back (sink : Sink) (world : World) (requests : List Request)
    (hhost : ∀ request ∈ requests, request.Builds) :
    let start := History.start sink world
    (∀ m, start.Visits requests m → ∀ id < m.heap.nextId, ∀ (name : Token) (value : Value),
      m.Fit value → ∃ m', m.Writes m' id name value ∧
        ∀ (nextId : OccurrenceId) (more : List Request), (∀ request ∈ more, request.Builds) →
          let next : History := ⟨⟨m', nextId⟩, []⟩
          GivesBackAlong (next.moments more) (next.after more).session.machine id name.lexeme value) ∧
      ∀ before m id name value after,
        start.moments requests = before ++ ⟨m, .sets id name value⟩ :: after →
          id < m.heap.nextId ∧ m.Fit value ∧
            GivesBackAlong after (start.after requests).session.machine id name value := by
  intro start
  have horderly := start_orderly sink world
  refine ⟨fun m hvisits id hid name value hvalue => ?_, fun before m id name value after hsplit => ?_⟩
  · obtain ⟨m', hwrites, hearlier, horderly', hstores⟩ :=
      (hvisits.orderly horderly hhost).writes hid name hvalue
    refine ⟨m', hwrites, ?_⟩
    intro nextId more hmore next
    have path := @History.path next horderly' more hmore
    exact path.givesBack (Nat.lt_of_lt_of_le hid hearlier.objects_le) (hvalue.mono hearlier) hstores
  · have path : Path _ (start.moments requests) _ := History.path horderly hhost
    rw [hsplit] at path
    exact path.givesBack_of_sets

private theorem checked_field :
    (checkProgram 0 "class A\x7b\x7dvar a=A();a.f=true;print a.f;").result =
      .ok ([.classDecl ⟨.identifier, "A", 1⟩ [],
        .varDecl ⟨.identifier, "a", 1⟩
          (some (.call (.var 0 ⟨.identifier, "A", 1⟩) ⟨.symbol .rightParen, ")", 1⟩ [])),
        .expression (.set (.var 1 ⟨.identifier, "a", 1⟩) ⟨.identifier, "f", 1⟩
          (.literal (.boolean true))),
        .print (.get (.var 2 ⟨.identifier, "a", 1⟩) ⟨.identifier, "f", 1⟩)], []) := by
  unfold checkProgram check tokensOf lexicalIssuesOf
  rw [itemsOf_eq_itemsWithin]
  rfl

/-- The last field that is written is the field `f` of the first object, and `true` is written to it. -/
private def writesTrue (trace : List Moment) : Bool :=
  match trace.reverse.find? fun moment => moment.happening matches .sets .. with
  | some ⟨_, .sets 0 "f" (.boolean true)⟩ => true
  | _ => false

private theorem split_of_writesTrue {trace : List Moment} (h : writesTrue trace = true) :
    ∃ before m after, trace = before ++ ⟨m, .sets 0 "f" (.boolean true)⟩ :: after ∧
      ∀ moment ∈ after, ¬moment.Writes 0 "f" := by
  unfold writesTrue at h
  split at h
  · next m hfind =>
    -- the trace was searched from behind
    obtain ⟨-, after, before, hreverse, hafter⟩ := List.find?_eq_some_iff_append.mp hfind
    have hsplit := congrArg List.reverse hreverse
    rw [List.reverse_reverse, List.reverse_append, List.reverse_cons, List.append_assoc] at hsplit
    refine ⟨before.reverse, m, after.reverse, hsplit, fun moment hmoment => ?_⟩
    rintro ⟨value, hwrites⟩
    have silent := hafter moment (List.mem_reverse.mp hmoment)
    rw [hwrites] at silent
    exact absurd silent nofun
  · nomatch h

/-- A field that a program writes is given back where the program ends. -/
theorem properties_given_back_field :
    let requests : List Request := [.run 9 "class A\x7b\x7dvar a=A();a.f=true;print a.f;"]
    let start := History.start (.start none) (.start [])
    (start.after requests).session.printed = "true\n" ∧
      (start.after requests).session.machine.GivesBack 0 "f" (.boolean true) := by
  intro requests start
  have written : writesTrue (start.moments requests) = true := by
    rw [History.moments_run checked_field]
    decide +kernel
  obtain ⟨before, m, after, hsplit, hafter⟩ := split_of_writesTrue written
  obtain ⟨-, given⟩ := properties_given_back (.start none) (.start []) requests
    (List.forall_mem_singleton.mpr trivial)
  obtain ⟨-, -, along⟩ := given before m 0 "f" (.boolean true) after hsplit
  have machine : (start.after requests).session.machine = _ := History.machine_run (h := start) checked_field 9
  refine ⟨?_, along.behind hafter⟩
  rw [Session.printed, machine]
  decide +kernel

/-! ## A method that is written to its own object -/

private theorem checked_own_method :
    (checkProgram 0 "class A\x7bm()\x7b\x7d\x7dvar a=A();var m=a.m;a.f=m;print a.f==m;").result =
      .ok ([.classDecl ⟨.identifier, "A", 1⟩ [⟨⟨.identifier, "m", 1⟩, [], []⟩],
        .varDecl ⟨.identifier, "a", 1⟩
          (some (.call (.var 0 ⟨.identifier, "A", 1⟩) ⟨.symbol .rightParen, ")", 1⟩ [])),
        .varDecl ⟨.identifier, "m", 1⟩
          (some (.get (.var 1 ⟨.identifier, "a", 1⟩) ⟨.identifier, "m", 1⟩)),
        .expression (.set (.var 2 ⟨.identifier, "a", 1⟩) ⟨.identifier, "f", 1⟩
          (.var 3 ⟨.identifier, "m", 1⟩)),
        .print (.binary (.get (.var 4 ⟨.identifier, "a", 1⟩) ⟨.identifier, "f", 1⟩)
          ⟨.symbol .equalEqual, "==", 1⟩ (.var 5 ⟨.identifier, "m", 1⟩))], []) := by
  unfold checkProgram check tokensOf lexicalIssuesOf
  rw [itemsOf_eq_itemsWithin]
  rfl

/-- A function is written to a field, and another one is given back. -/
private def givesBackOther (moment : Moment) : Bool :=
  match moment.happening with
  | .sets id name (.function f) =>
    match Run.setProperty id ⟨.identifier, name, 1⟩ (.function f) moment.machine with
    | .ok _ m =>
      match Run.getProperty id ⟨.identifier, name, 1⟩ m with
      | .ok got _ => !got.equals (.function f)
      | .error _ _ => false
    | .error _ _ => false
  | _ => false

/-- What is given back need not be equal to what was written: a program writes a method to a field of the
object that it is bound to, and reads another function. -/
theorem own_method_given_back_other :
    let requests : List Request :=
      [.run 9 "class A\x7bm()\x7b\x7d\x7dvar a=A();var m=a.m;a.f=m;print a.f==m;"]
    let start := History.start (.start none) (.start [])
    (start.after requests).session.printed = "false\n" ∧
      ∃ moment ∈ start.moments requests, ∃ id name value m m' got,
        moment.happening = .sets id name value ∧ ¬value.IsNaN ∧
          Run.setProperty id ⟨.identifier, name, 1⟩ value moment.machine = .ok () m ∧
          Run.getProperty id ⟨.identifier, name, 1⟩ m = .ok got m' ∧ got.equals value = false := by
  intro requests start
  have other : (start.moments requests).any givesBackOther = true := by
    rw [History.moments_run checked_own_method]
    decide +kernel
  constructor
  · have machine : (start.after requests).session.machine = _ :=
      History.machine_run (h := start) checked_own_method 9
    rw [Session.printed, machine]
    decide +kernel
  · obtain ⟨moment, hmoment, hother⟩ := List.any_eq_true.mp other
    refine ⟨moment, hmoment, ?_⟩
    unfold givesBackOther at hother
    split at hother
    · next id name f hsets =>
      split at hother
      · next m hset =>
        split at hother
        · next got m' hget =>
          exact ⟨id, name, .function f, m, m', got, hsets, nofun, hset, hget, by simpa using hother⟩
        · nomatch hother
      · nomatch hother
    · nomatch hother

end Lox
