import Lox.Proofs.Parser.Program
import Lox.Proofs.Renaming.Source
import Lox.Proofs.Renaming.Twins
import Lox.Proofs.Session.Twins

/-!
# A variable under another name

In a source that passes its checks, a variable of a block or of a function can have any other name that
does not occur in the source. The new source passes with the same distances, and nothing that can be seen
of a run changes (`rename_local`).
-/

namespace Lox

open Renaming Resolution

/-! ## Checks -/

/-- The reserved word is no name. -/
theorem Lexical.ne_receiver {name : String} (h : Lexical (.kind .identifier) name.toList) :
    name ≠ receiverName := by
  rintro rfl
  have same := h.content_unique (.keyword .thisKw)
  nomatch same

/-- Where no occurrence is listed twice, all distances are found. -/
theorem lookup_eq_some {distances : Distances} (hnodup : (distances.map (·.1)).Nodup)
    (id : OccurrenceId) (d : Nat) : distances.lookup id = some d ↔ (id, d) ∈ distances := by
  induction distances with
  | nil => simp
  | cons pair more ih =>
    obtain ⟨key, distance⟩ := pair
    rw [List.map_cons, List.nodup_cons] at hnodup
    rw [List.lookup_cons]
    by_cases hkey : id = key
    · subst hkey
      have absent : (id, d) ∉ more := fun hmem => hnodup.1 (List.mem_map.mpr ⟨(id, d), hmem, rfl⟩)
      simp [absent, eq_comm]
    · have other : (id == key) = false := beq_eq_false_iff_ne.mpr hkey
      simp [other, hkey, ih hnodup.2]

/-- What is known of a source in which one variable gets a new name. -/
structure Respelling.Prepared (s : Respelling) (source : String) (program program' : List Stmt)
    (n : OccurrenceId) : Prop where
  lexical : lexicalIssuesOf source = []
  reads : ReadsDeclarations 0 (wordsOf source) program n
  resolved : resolveProgram program = .ok s.distances
  without : Without s.new (wordsOf source)
  named : Stmt.WellNamedAll program
  bound : Stmt.BoundAll (s.record n) [] program
  respelt : Stmt.RespeltAll s [] program program'

section

variable {s : Respelling} {source : String} {program program' : List Stmt}

theorem Respelling.prepared (hcheck : (checkProgram 0 source).result = .ok (program, s.distances))
    (hnew : Lexical (.kind .identifier) s.new.toList)
    (hfresh : ∀ token ∈ tokensOf source, token.lexeme ≠ s.new)
    (hrenames : Stmt.RenamesIn s program program') :
    s.Prepared source program program' (checkProgram 0 source).nextId := by
  obtain ⟨lexical, hparsed, resolved⟩ := check_ok hcheck
  have reads := parseProgram_eq_ok.mp hparsed
  have spelled := spelled_takeWhile source
  have without : Without s.new (wordsOf source) := fun token htoken =>
    hfresh token ((List.takeWhile_sublist _).subset htoken)
  have avoids := avoids_of_declarations reads without
  have named := wellNamed_of_declarations reads spelled
  have clean := (resolveProgram_eq_ok.mp resolved).1
  have distinct := (statements_distinct .outermost program named clean).1
  have hos := numbered_of_declarations reads
  have hids := ids_of_resolveProgram resolved
  have recorded : Recorded (s.record (checkProgram 0 source).nextId) (Stmt.occurrencesIn program)
      s.distances :=
    recorded_of_numbered hos spelled rfl fun o _ => lookup_eq_some (distances_nodup hos hids) o.id
  exact ⟨lexical, reads, resolved, without, named, bound_of_resolveProgram resolved named recorded,
    hrenames.respelt hnew.ne_receiver 0 avoids named distinct⟩

/-- The program with the new name is that of a source that passes with the same distances. -/
theorem Respelling.Prepared.exists_source {n : OccurrenceId}
    (h : s.Prepared source program program' n) (hnew : Lexical (.kind .identifier) s.new.toList) :
    ∃ source', SourceRespelt s.new source source' ∧
      checkProgram 0 source' = ⟨.ok (program', s.distances), n⟩ := by
  obtain ⟨ts', hretold, reads'⟩ :=
    respelt_of_declarations h.reads h.without (List.forall_mem_nil _) h.respelt
  obtain ⟨source', hrespelt, hwords, hissues⟩ := exists_sourceRespelt hnew source hretold
  have avoids := avoids_of_declarations h.reads h.without
  have resolved' := resolveProgram_respelt hnew.ne_receiver h.resolved h.respelt h.bound avoids h.named
  refine ⟨source', hrespelt, check_eq (hissues.trans h.lexical) (parseProgram_eq_ok.mpr ?_) resolved'⟩
  rw [← hwords] at reads'
  exact reads'

/-! ## Runs -/

/-- Two runs of one session on the same distances, on the same lines, where the first is watched. -/
def watchedTie (record : Record) (promise : Code → Machine → Prop) : Tie where
  left := record
  right := record
  line := Eq
  before := ""
  promise := promise

/-- Where code is placed, what is read is there. -/
theorem guards_placed (record : Record) (labels : Labels) (units : List Code) :
    (watchedTie record (Placed labels units)).Guards := by
  rintro e m ⟨path, -, -, hleads⟩ o ho hrole d hd
  obtain ⟨frame, -, hframe, -, -, -, -, hthere⟩ := hleads o ho d hd
  exact ⟨frame, hframe, hthere hrole⟩

theorem level_placed (record : Record) (labels : Labels) (units : List Code) (step : Nat) :
    (watchedTie record (Placed labels units)).Level (.shift step id) :=
  ⟨fun _ => rfl, rfl, guards_placed record labels units⟩

/-- A source that passes its checks, passes them from any number on. -/
theorem checkProgram_shift {distances : Distances}
    (h : (checkProgram 0 source).result = .ok (program, distances)) (n : OccurrenceId) :
    (checkProgram n source).result =
      .ok (Stmt.relabelAll (.shift n id) program, distances.map fun (id, d) => (id + n, d)) := by
  have eq := checkProgram_add 0 n source
  rw [Nat.zero_add] at eq
  rw [eq, Checked.renumber, h]

variable {session : Session} {units : List Code} {labels : Labels}

/-- A unit can be watched, with its code among all code, and does not stray. -/
theorem exists_watched (hsound : History.Sound ⟨session, units⟩ labels) (fuel : Nat)
    (source : String) : ∃ labels' units',
      session.runWatched (Placed labels' units') fuel source = session.run fuel source ∧
        (session.run fuel source).1 ≠ .strayed := by
  have promised : ∀ record : Record,
      Warranted ⟨units ++ session.admitted (.run fuel source), record⟩ fun labels =>
        Placed labels (units ++ session.admitted (.run fuel source)) :=
    fun record => placed ⟨_, record⟩
  obtain ⟨labels', -, -, hwatched⟩ := run_sound promised hsound (List.subset_append_left _ _) fuel
    fun program distances hresult t ht => by
      rw [Session.admitted_run fuel hresult]
      exact List.mem_append_right _ (List.mem_map_of_mem ht)
  exact ⟨labels', _, hwatched labels' fun _ _ => rfl⟩

/-- A unit in which a variable has got a new name looks the same. -/
theorem observe_respelt {n : OccurrenceId} (h : s.Prepared source program program' n)
    {source' : String}
    (hcheck : (checkProgram 0 source).result = .ok (program, s.distances))
    (hcheck' : (checkProgram 0 source').result = .ok (program', s.distances))
    (htwins : session.Twins session) (hsound : History.Sound ⟨session, units⟩ labels) (fuel : Nat) :
    session.observe (.run fuel source') = session.observe (.run fuel source) := by
  have result := checkProgram_shift hcheck session.nextId
  have result' := checkProgram_shift hcheck' session.nextId
  generalize (s.distances.map fun (id, d) => (id + session.nextId, d)) = distances at result result'
  obtain ⟨hadmits, hbound⟩ := bound_of_checkProgram (m := session.idle) htwins.fresh result
  obtain ⟨labels', units', watched, hstray⟩ := exists_watched hsound fuel source
  have level := level_placed
    ((session.idle.adopt distances).record (checkProgram session.nextId source).nextId) labels'
    units' session.nextId
  have twins := h.respelt.twins level rfl h.bound hbound
  obtain ⟨names, hmachines⟩ := htwins.machines
  have start : Pair.Twins (watchedTie ((session.idle.adopt distances).record
      (checkProgram session.nextId source).nextId) (Placed labels' units'))
        ⟨names, session.idle.adopt distances, session.idle.adopt distances⟩ :=
    hmachines.extend ⟨hadmits.extended, hadmits.extended, fun _ _ h => h, fun _ => level.guards⟩ rfl
      rfl rfl rfl rfl hmachines.current (fun _ => rfl) (fun _ => rfl) hmachines.actions
      hmachines.blind hmachines.sink hmachines.world hmachines.nextIdentity
  rcases interpret_twins _ fuel start htwins.current twins with ⟨σ, hreach, hend⟩ | ⟨-, m, hrun⟩
  · have printed : σ.right.sink.text = σ.left.sink.text := by
      rw [hreach.twins.sink.text]
      exact String.empty_append.symm
    rw [Session.observe, Session.observe, Option.some_inj]
    rcases hend with ⟨_, _, hrun, hrun', -⟩ | ⟨i, i', hrun, hrun', hi⟩
    · have ended : session.run fuel source = _ := watched.symm.trans (perform_done result hrun)
      have ended' : session.run fuel source' = _ := perform_done result' hrun'
      rw [ended, ended']
      simp only [Observation.of, Session.printed, Outcome.map, printed]
    · have ended : session.run fuel source = _ :=
        watched.symm.trans (perform_interrupted result hrun)
      have ended' : session.run fuel source' = _ := perform_interrupted result' hrun'
      rw [ended, ended']
      simp only [Observation.of, Session.printed, printed]
      cases hi with
      | runtime fault hline =>
        cases (hline : _ = _)
        rfl
      | _ => rfl
  · -- the first run would have strayed
    have ended : session.run fuel source = _ := watched.symm.trans (perform_interrupted result hrun)
    rw [ended] at hstray
    exact absurd rfl hstray

end

/-- In a source that passes its checks, a variable of a block or of a function can have any other name
that does not occur in the source. There is such a source, which passes its checks with the same
distances; and whatever a session has been asked for, if functions of the host do not see code and build
their answers from their arguments, the same is seen of both. -/
theorem rename_local {s : Respelling} {source : String} {program program' : List Stmt}
    (hcheck : (checkProgram 0 source).result = .ok (program, s.distances))
    (hnew : Lexical (.kind .identifier) s.new.toList)
    (hfresh : ∀ token ∈ tokensOf source, token.lexeme ≠ s.new)
    (hrenames : Stmt.RenamesIn s program program') :
    (∃ source', SourceRespelt s.new source source' ∧
        (checkProgram 0 source').result = .ok (program', s.distances)) ∧
      ∀ source', (checkProgram 0 source').result = .ok (program', s.distances) →
        ∀ (sink : Sink) (world : World) (requests : List Request),
          (∀ request ∈ requests, request.Blind ∧ request.Builds) → ∀ fuel,
            (requests.foldl Session.handle (.start (.start sink world))).observe (.run fuel source') =
              (requests.foldl Session.handle (.start (.start sink world))).observe
                (.run fuel source) := by
  have prepared := Respelling.prepared hcheck hnew hfresh hrenames
  constructor
  · obtain ⟨source', hrespelt, hcheck'⟩ := prepared.exists_source hnew
    exact ⟨source', hrespelt, congrArg Checked.result hcheck'⟩
  · intro source' hcheck' sink world requests hrequests fuel
    have htwins := after_twins (start_twins sink world) fun request h => (hrequests request h).1
    obtain ⟨labels, hsound⟩ :=
      after_sound (start_sound sink world) fun request h => (hrequests request h).2
    have session : requests.foldl Session.handle (.start (.start sink world)) =
        ((History.start sink world).after requests).session :=
      ((History.start sink world).after_session requests).symm
    rw [session] at htwins ⊢
    exact observe_respelt prepared hcheck hcheck' htwins hsound fuel

/-- A block with a variable that is called like this, and with one that is called `a` further inside. -/
def shadowing (outer : String) : List Stmt :=
  [.block [.varDecl ⟨.identifier, outer, 1⟩ none,
    .block [.varDecl ⟨.identifier, "a", 1⟩ none, .expression (.var 0 ⟨.identifier, "a", 1⟩)],
    .expression (.var 1 ⟨.identifier, outer, 1⟩)]]

/-- Of two variables `a`, one inside of the other, the outer one is called `b`, behind a function of the
host that gives its argument back. -/
theorem rename_local_shadowing :
    (checkProgram 0 "\x7bvar a;\x7bvar a;a;\x7da;\x7d").result =
        .ok (shadowing "a", [(1, 0), (0, 0)]) ∧
      Stmt.RenamesIn ⟨"a", "b", [(1, 0), (0, 0)]⟩ (shadowing "a") (shadowing "b") ∧
      (∃ source', SourceRespelt "b" "\x7bvar a;\x7bvar a;a;\x7da;\x7d" source' ∧
        (checkProgram 0 source').result = .ok (shadowing "b", [(1, 0), (0, 0)])) ∧
      ∀ fuel, ([Request.offer ⟨"echo", 1, fun _ world arguments =>
          (.ok (arguments.headD .nil), world)⟩].foldl Session.handle
            (.start (.start (.start none) (.start [])))).observe
              (.run fuel "\x7bvar b;\x7bvar a;a;\x7db;\x7d") =
        ([Request.offer ⟨"echo", 1, fun _ world arguments =>
          (.ok (arguments.headD .nil), world)⟩].foldl Session.handle
            (.start (.start (.start none) (.start [])))).observe
              (.run fuel "\x7bvar a;\x7bvar a;a;\x7da;\x7d") := by
  have hcheck : (checkProgram 0 "\x7bvar a;\x7bvar a;a;\x7da;\x7d").result =
      .ok (shadowing "a", [(1, 0), (0, 0)]) := by
    unfold checkProgram check tokensOf lexicalIssuesOf
    rw [itemsOf_eq_itemsWithin]
    rfl
  have hcheck' : (checkProgram 0 "\x7bvar b;\x7bvar a;a;\x7db;\x7d").result =
      .ok (shadowing "b", [(1, 0), (0, 0)]) := by
    unfold checkProgram check tokensOf lexicalIssuesOf
    rw [itemsOf_eq_itemsWithin]
    rfl
  have hnew : Lexical (.kind .identifier) "b".toList :=
    .identifier rfl (List.forall_mem_nil _) fun word => by cases word <;> decide
  have hfresh : ∀ token ∈ tokensOf "\x7bvar a;\x7bvar a;a;\x7da;\x7d", token.lexeme ≠ "b" := by
    unfold tokensOf
    rw [itemsOf_eq_itemsWithin]
    decide
  have hrenames : Stmt.RenamesIn ⟨"a", "b", [(1, 0), (0, 0)]⟩ (shadowing "a") (shadowing "b") :=
    .first (.block ⟨_, _, List.mem_cons_self, rfl⟩)
  have renamed := rename_local (s := ⟨"a", "b", [(1, 0), (0, 0)]⟩) hcheck hnew hfresh hrenames
  refine ⟨hcheck, hrenames, renamed.1, renamed.2 _ hcheck' _ _ _ ?_⟩
  refine List.forall_mem_singleton.mpr ⟨?_, builds_headD⟩
  intro R _ heap heap' world arguments arguments' _ harguments
  cases harguments with
  | nil => exact ⟨rfl, .ok .nil⟩
  | cons hfirst _ => exact ⟨rfl, .ok hfirst⟩

end Lox
