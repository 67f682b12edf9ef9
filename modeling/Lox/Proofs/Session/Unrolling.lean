import Lox.Proofs.Parser.Unrolling
import Lox.Proofs.Session.Joining

/-!
# A session cannot tell a loop from its expansion

A `for` loop and its expansion are parsed as the same tree with other identities and on other lines. So
the resolver finds the same for each occurrence in the loop as for the one in its place in the expansion
(`found_alike`), and whatever a session has been asked for before, it prints the same for both and comes
to the same end (`runs_alike`). Only the lines of errors are those of the source that is run.
-/

namespace Lox

open Lox.Parser Lox.Grammar Resolution

/-! ## Trees -/

theorem relabel_blank (r : Relabeling) (t : Stmt) :
    (t.relabel r).relabel .blank = t.relabel .blank :=
  Stmt.relabel_relabel .blank r t

/-! ## Distances and errors -/

/-- The same error, at the same token but for its line. -/
structure ScopeError.Alike (line : Nat → Nat → Prop) (error error' : ScopeError) : Prop where
  token : error.token.Alike line error'.token
  issue : error.issue = error'.issue

/-- Occurrences in the same place, with the same distance if they have one. -/
structure Occurrence.Alike (line : Nat → Nat → Prop) (distances distances' : Distances)
    (o o' : Occurrence) : Prop where
  role : o.role = o'.role
  token : o.token.Alike line o'.token
  distance : ∀ d, (o.id, d) ∈ distances ↔ (o'.id, d) ∈ distances'

/-- The resolver finds the same for each occurrence of one program as for the one in its place in the
other, or it reports the same errors. -/
inductive FoundAlike (line : Nat → Nat → Prop) (occurrences occurrences' : List Occurrence) :
    Except (List ScopeError) Distances → Except (List ScopeError) Distances → Prop
  | ok {distances distances' : Distances} :
      List.Forall₂ (Occurrence.Alike line distances distances') occurrences occurrences' →
      FoundAlike line occurrences occurrences' (.ok distances) (.ok distances')
  | error {errors errors' : List ScopeError} :
      List.Forall₂ (ScopeError.Alike line) errors errors' →
      FoundAlike line occurrences occurrences' (.error errors) (.error errors')

section

variable {line : Nat → Nat → Prop} {tree : Stmt} {r r' : Relabeling}

theorem token_alike (hlines : ∀ l, line (r.line l) (r'.line l)) (token : Token) :
    (r.token token).Alike line (r'.token token) :=
  ⟨rfl, rfl, hlines token.line⟩

/-- Where identities stay apart, an occurrence has a distance just if the relabeled one has it. -/
theorem mem_relabeled {os : List Occurrence} {distances : Distances}
    (hnodup : ((os.map r.occurrence).map (·.id)).Nodup)
    (hids : (distances.map (·.1)) ⊆ os.map (·.id)) {o : Occurrence} (ho : o ∈ os) (d : Nat) :
    (r.id o.id, d) ∈ distances.map (fun (id, d) => (r.id id, d)) ↔ (o.id, d) ∈ distances := by
  have apart : ∀ x ∈ os, ∀ y ∈ os, r.id x.id = r.id y.id → x = y := by
    rw [List.map_map] at hnodup
    exact fun x hx y hy same => List.inj_on_of_nodup_map hnodup hx hy same
  constructor
  · intro h
    obtain ⟨⟨id, d'⟩, hmem, heq⟩ := List.mem_map.mp h
    obtain ⟨hid, rfl⟩ := Prod.mk.inj heq
    obtain ⟨o', ho', rfl⟩ := List.mem_map.mp (hids (List.mem_map_of_mem hmem))
    obtain rfl := apart o' ho' o ho hid
    exact hmem
  · exact fun h => List.mem_map.mpr ⟨_, h, rfl⟩

/-- What the resolver finds for one tree with different identities and lines. -/
theorem found_alike (hlines : ∀ l, line (r.line l) (r'.line l))
    (hnodup : ((tree.relabel r).occurrences.map (·.id)).Nodup)
    (hnodup' : ((tree.relabel r').occurrences.map (·.id)).Nodup) :
    FoundAlike line (tree.relabel r).occurrences (tree.relabel r').occurrences
      (resolveProgram [tree.relabel r]) (resolveProgram [tree.relabel r']) := by
  have left := resolveProgram_relabel r [tree]
  have right := resolveProgram_relabel r' [tree]
  simp only [Stmt.relabelAll] at left right
  rw [Stmt.occurrences_relabel] at hnodup hnodup' ⊢
  rw [Stmt.occurrences_relabel, left, right]
  cases h : resolveProgram [tree] with
  | error errors =>
    refine .error (List.forall₂_map_left_iff.mpr (List.forall₂_map_right_iff.mpr ?_))
    exact List.forall₂_same.mpr fun error _ => ⟨token_alike hlines error.token, rfl⟩
  | ok distances =>
    have hids : distances.map (·.1) ⊆ tree.occurrences.map (·.id) := by
      have hids := (ids_of_resolveProgram h).subset
      rwa [Stmt.occurrencesIn, Stmt.occurrencesIn, List.append_nil] at hids
    refine .ok (List.forall₂_map_left_iff.mpr (List.forall₂_map_right_iff.mpr ?_))
    refine List.forall₂_same.mpr fun o ho => ⟨rfl, token_alike hlines o.token, fun d => ?_⟩
    exact (mem_relabeled hnodup hids ho d).trans (mem_relabeled hnodup' hids ho d).symm

end

/-! ## Runs -/

/-- The same diagnostic of a scope, but for its line. -/
inductive Diagnostic.Alike (line : Nat → Nat → Prop) : Diagnostic → Diagnostic → Prop
  | scoping {site site' : Site} (issue : ScopeIssue) : line site.line site'.line →
      site.lexeme? = site'.lexeme? → Alike line (.scoping site issue) (.scoping site' issue)

/-- Units are both rejected or both run, and end alike but for the lines of errors. -/
inductive Outcome.Alike (line : Nat → Nat → Prop) : Outcome Unit → Outcome Unit → Prop
  | rejected {diagnostics diagnostics' : List Diagnostic} :
      List.Forall₂ (Diagnostic.Alike line) diagnostics diagnostics' →
      Alike line (.failed (.rejected diagnostics)) (.failed (.rejected diagnostics'))
  | ran {ended ended' : Outcome Unit} : EndsAlike line ended ended' → Alike line ended ended'

/-- Units end alike, print the same and leave the same values in the same global names. -/
structure RunsAlike (line : Nat → Nat → Prop) (ended ended' : Outcome Unit × Session) : Prop where
  outcome : Outcome.Alike line ended.1 ended'.1
  printed : ended.2.printed = ended'.2.printed
  globals : SameGlobals ended.2.machine ended'.2.machine

/-- On the same lines, the outcome is the same. -/
theorem Outcome.Alike.eq {ended ended' : Outcome Unit} (h : Outcome.Alike Eq ended ended') :
    ended = ended' := by
  cases h with
  | rejected h =>
    have same : List.Forall₂ Eq _ _ := h.imp fun _ _ h => by
      obtain @⟨⟨_, _⟩, ⟨_, _⟩, issue, hline, hlexeme⟩ := h
      exact congrArg (Diagnostic.scoping · issue) (Site.mk.injEq .. ▸ ⟨hline, hlexeme⟩)
    rw [List.forall₂_eq_eq_eq] at same
    rw [same]
  | ran h =>
    cases h with
    | runtime fault hline => rw [hline]
    | _ => rfl

section

variable {line : Nat → Nat → Prop} {s : Session} {source source' : String}

/-- A source without lexical issues whose tokens are parsed is rejected only for its names. -/
theorem checkProgram_parsed {n m : OccurrenceId} {program : List Stmt}
    (hlexical : lexicalIssuesOf source = [])
    (hparsed : parseProgram n (tokensOf source) = ⟨.ok program, m⟩) :
    checkProgram n source = ⟨match resolveProgram program with
      | .ok distances => .ok (program, distances)
      | .error errors => .error (errors.map ScopeError.diagnostic), m⟩ := by
  simp only [checkProgram, check, hlexical, hparsed, List.isEmpty_nil, if_true, List.nil_append]
  cases resolveProgram program <;> rfl

theorem diagnostic_alike {error error' : ScopeError} (h : error.Alike line error') :
    error.diagnostic.Alike line error'.diagnostic := by
  unfold ScopeError.diagnostic
  rw [← h.issue]
  refine .scoping _ h.token.line ?_
  simp only [Token.site, h.token.kind, h.token.lexeme]

/-- Twins on the same lines are twins on lines that belong together. -/
theorem twins_of_lines (hline : ∀ n, line n n) {left right : Record} {σ : Pair}
    (h : σ.Twins (Session.tie left right)) : σ.Twins (joinedTie line "" left right) := by
  refine h.extend ⟨⟨Nat.le_refl _, fun _ _ => rfl⟩, ⟨Nat.le_refl _, fun _ _ => rfl⟩, ?_, ?_⟩ rfl rfl rfl
    rfl rfl h.current h.distances h.distances' h.actions h.blind h.sink h.world h.nextIdentity
  · rintro n _ rfl
    exact hline n
  · exact fun guards e m _ => guards e m trivial

/-- A session runs a program alike with any identities and on any lines. -/
theorem runs_alike (hline : ∀ n, line n n) (h : s.Twins s) {program : List Stmt} {r r' : Relabeling}
    (hlines : ∀ l, line (r.line l) (r'.line l)) {m m' : Nat} (hlexical : lexicalIssuesOf source = [])
    (hlexical' : lexicalIssuesOf source' = [])
    (hparsed : parseProgram s.nextId (tokensOf source) = ⟨.ok (Stmt.relabelAll r program), m⟩)
    (hparsed' : parseProgram s.nextId (tokensOf source') = ⟨.ok (Stmt.relabelAll r' program), m'⟩)
    (fuel : Nat) : RunsAlike line (s.run fuel source) (s.run fuel source') := by
  have checked := checkProgram_parsed hlexical hparsed
  have checked' := checkProgram_parsed hlexical' hparsed'
  -- both are checked as the program without a relabeling is, with what it finds relabeled
  rw [resolveProgram_relabel] at checked checked'
  cases hresolved : resolveProgram program with
  | error errors =>
    rw [hresolved] at checked checked'
    have rejected := congrArg Checked.result checked
    have rejected' := congrArg Checked.result checked'
    have ended : s.run fuel source = _ := perform_rejected rejected _
    have ended' : s.run fuel source' = _ := perform_rejected rejected' _
    obtain ⟨labels, hmachines⟩ := h.machines
    rw [ended, ended']
    refine ⟨.rejected ?_, rfl, hmachines.sameGlobals⟩
    simp only [List.map_map, List.forall₂_map_left_iff, List.forall₂_map_right_iff]
    exact List.forall₂_same.mpr fun error _ => diagnostic_alike ⟨token_alike hlines error.token, rfl⟩
  | ok distances =>
    rw [hresolved] at checked checked'
    have passed := congrArg Checked.result checked
    have passed' := congrArg Checked.result checked'
    obtain ⟨hadmits, hbound⟩ := bound_of_checkProgram (m := s.idle) h.fresh passed
    obtain ⟨hadmits', hbound'⟩ := bound_of_checkProgram (m := s.idle) h.fresh passed'
    obtain ⟨labels, hmachines⟩ := h.adopt hadmits hadmits'
    have relines (left right : Record) : (joinedTie line "" left right).Relines r r' := hlines
    obtain ⟨σ, hreach, hend⟩ := Agree.always (fun _ _ => trivial)
      (interpret_agree (fun _ _ => trivial) fuel (twins_of_lines hline hmachines) h.current
        (Stmt.Bound.twins (relines _ _) program hbound hbound'))
    have printed : σ.left.sink.text = σ.right.sink.text :=
      hreach.twins.sink.text.trans String.empty_append
    rcases hend with ⟨_, _, hrun, hrun', -⟩ | ⟨i, i', hrun, hrun', hi⟩
    · rw [Session.run, Session.run, perform_done passed hrun, perform_done passed' hrun']
      exact ⟨.ran .done, printed, hreach.twins.sameGlobals⟩
    · rw [Session.run, Session.run, perform_interrupted passed hrun, perform_interrupted passed' hrun']
      exact ⟨.ran (.of_interrupts hi), printed, hreach.twins.sameGlobals⟩

end

/-! ## Loops -/

/-- The tokens in front of the end. -/
def wordsIn (tokens : List Token) : List Token := tokens.takeWhile (·.kind != .eof)

/-- A loop and its expansion are both parsed, as the same tree with other identities and lines. -/
theorem parse_expansion {line : Nat → Nat → Prop} (hline : ∀ n, line n n) {p p' : LoopParts}
    (hp : p.Formed) (halike : p.Alike line p') {tokens tokens' : List Token}
    (hloop : p.Loop (wordsIn tokens)) (hexpansion : p'.Expansion (wordsIn tokens')) (n n' : Nat) :
    ∃ (tree : Stmt) (r r' : Relabeling), (∃ m, parseProgram n tokens = ⟨.ok [tree.relabel r], m⟩) ∧
      (∃ m, parseProgram n' tokens' = ⟨.ok [tree.relabel r'], m⟩) ∧
      ∀ l, line (r.line l) (r'.line l) := by
  obtain ⟨tree, r, r', ⟨_, m, h⟩, ⟨_, m', h'⟩, hlines⟩ :=
    LoopParts.exists_common_tree hline hp halike hloop hexpansion n n'
  exact ⟨tree, r, r', ⟨m, parseProgram_eq_ok.mpr (declarations_singleton (.statement h))⟩,
    ⟨m', parseProgram_eq_ok.mpr (declarations_singleton (.statement h'))⟩, hlines⟩

/-- Every statement that is accepted and begins with `for` is a loop of parts that derive what their
places ask for. Its expansion, on any lines that belong to those of the loop, is accepted as well. The
trees are the same but for identities and lines, the resolver finds the same for corresponding
occurrences or reports the same errors, and both do the same in every session in which the functions of
the host do not see code. -/
theorem loop_expands :
    (∀ {n m : Nat} {tokens ts : List Token} {keyword : Token} {t : Stmt},
      wordsIn tokens = keyword :: ts → keyword.kind = .keyword .forKw →
        parseProgram n tokens = ⟨.ok [t], m⟩ →
          ∃ p : LoopParts, p.Formed ∧ p.Loop (wordsIn tokens)) ∧
    ∀ {line : Nat → Nat → Prop}, (∀ n, line n n) → ∀ {p p' : LoopParts}, p.Formed → p.Alike line p' →
      (∀ {tokens tokens' : List Token}, p.Loop (wordsIn tokens) → p'.Expansion (wordsIn tokens') →
        ∀ n n', ∃ t t', (∃ m, parseProgram n tokens = ⟨.ok [t], m⟩) ∧
          (∃ m, parseProgram n' tokens' = ⟨.ok [t'], m⟩) ∧
          t.relabel .blank = t'.relabel .blank ∧
          FoundAlike line t.occurrences t'.occurrences (resolveProgram [t]) (resolveProgram [t'])) ∧
      ∀ (sink : Sink) (world : World) {requests : List Request},
        (∀ request ∈ requests, request.Blind) → ∀ {source source' : String},
          lexicalIssuesOf source = [] → lexicalIssuesOf source' = [] →
            p.Loop (wordsOf source) → p'.Expansion (wordsOf source') → ∀ fuel,
              let session := requests.foldl Session.handle (.start (.start sink world))
              RunsAlike line (session.run fuel source) (session.run fuel source') := by
  refine ⟨?_, fun {line} hline {p p'} hp halike => ⟨?_, ?_⟩⟩
  · intro n m tokens ts keyword t hwords hkeyword hparsed
    have reads : ReadsDeclarations n (wordsIn tokens) [t] m := parseProgram_eq_ok.mp hparsed
    rw [hwords] at reads ⊢
    obtain ⟨isOpen, hdeclaration⟩ := declaration_of_singleton reads
    exact LoopParts.loop_of_reads hkeyword
      (statement_of_declaration (by rw [hkeyword]; decide) hdeclaration)
  · intro tokens tokens' hloop hexpansion n n'
    obtain ⟨tree, r, r', ⟨m, h⟩, ⟨m', h'⟩, hlines⟩ :=
      parse_expansion hline hp halike hloop hexpansion n n'
    refine ⟨_, _, ⟨m, h⟩, ⟨m', h'⟩, (relabel_blank r tree).trans (relabel_blank r' tree).symm, ?_⟩
    refine found_alike hlines ?_ ?_
    · have numbered := numbered_of_declarations (parseProgram_eq_ok.mp h)
      simpa only [Stmt.occurrencesIn, List.append_nil] using numbered.nodup
    · have numbered := numbered_of_declarations (parseProgram_eq_ok.mp h')
      simpa only [Stmt.occurrencesIn, List.append_nil] using numbered.nodup
  · intro sink world requests hrequests source source' hlexical hlexical' hloop hexpansion fuel
    have twins := after_twins (start_twins sink world) hrequests
    obtain ⟨tree, r, r', ⟨m, h⟩, ⟨m', h'⟩, hlines⟩ :=
      @parse_expansion line hline p p' hp halike (tokensOf source) (tokensOf source') hloop
        hexpansion _ _
    change parseProgram _ (tokensOf source) = ⟨.ok (Stmt.relabelAll r [tree]), m⟩ at h
    exact runs_alike hline twins hlines hlexical hlexical' h h' fuel

private theorem items_of_bareLoop :
    itemsOf "for(;a;a)a;" = [.token ⟨.keyword .forKw, "for", 1⟩, .token ⟨.symbol .leftParen, "(", 1⟩,
        .token ⟨.symbol .semicolon, ";", 1⟩, .token ⟨.identifier, "a", 1⟩,
        .token ⟨.symbol .semicolon, ";", 1⟩, .token ⟨.identifier, "a", 1⟩,
        .token ⟨.symbol .rightParen, ")", 1⟩, .token ⟨.identifier, "a", 1⟩,
        .token ⟨.symbol .semicolon, ";", 1⟩, .token (.eof 1)] ∧
      itemsOf "while(a)\x7ba;a;\x7d" = [.token ⟨.keyword .whileKw, "while", 1⟩,
        .token ⟨.symbol .leftParen, "(", 1⟩, .token ⟨.identifier, "a", 1⟩,
        .token ⟨.symbol .rightParen, ")", 1⟩, .token ⟨.symbol .leftBrace, "\x7b", 1⟩,
        .token ⟨.identifier, "a", 1⟩, .token ⟨.symbol .semicolon, ";", 1⟩,
        .token ⟨.identifier, "a", 1⟩, .token ⟨.symbol .semicolon, ";", 1⟩,
        .token ⟨.symbol .rightBrace, "\x7d", 1⟩, .token (.eof 1)] := by
  constructor
  · rw [itemsOf_eq_itemsWithin]
    rfl
  · rw [itemsOf_eq_itemsWithin]
    rfl

/-- The parts of a loop without a first clause. -/
private def bareLoop : LoopParts where
  first := [⟨.symbol .semicolon, ";", 1⟩]
  condition := [⟨.identifier, "a", 1⟩]
  step := [⟨.identifier, "a", 1⟩]
  body := [⟨.identifier, "a", 1⟩, ⟨.symbol .semicolon, ";", 1⟩]

private theorem formed_bareLoop : bareLoop.Formed := by
  have name : ReadsExpr .whole 0 [⟨.identifier, "a", 1⟩] (.var 0 ⟨.identifier, "a", 1⟩) 1 :=
    .loosest (.operand (.operand (.operand (.operand (.operand (.operand (.prefixed (.applied
      (.primary (.var rfl))))))))))
  have expression := derives_of_reads name
  exact ⟨.right (derives_mark rfl), .present expression, .present expression,
    derives_of_statement (.expression name rfl)⟩

private theorem loop_bareLoop : bareLoop.Loop (wordsOf "for(;a;a)a;") := by
  rw [wordsOf, tokensOf, items_of_bareLoop.1]
  exact @LoopParts.Loop.intro bareLoop ⟨.keyword .forKw, "for", 1⟩ ⟨.symbol .leftParen, "(", 1⟩
    ⟨.symbol .semicolon, ";", 1⟩ ⟨.symbol .rightParen, ")", 1⟩ rfl rfl rfl rfl

private theorem expansion_bareLoop : bareLoop.Expansion (wordsOf "while(a)\x7ba;a;\x7d") := by
  rw [wordsOf, tokensOf, items_of_bareLoop.2]
  have round := @LoopParts.Round.stepping bareLoop ⟨.symbol .leftBrace, "\x7b", 1⟩
    ⟨.symbol .semicolon, ";", 1⟩ ⟨.symbol .rightBrace, "\x7d", 1⟩ (List.cons_ne_nil _ _) rfl rfl rfl
  exact .bare (derives_mark rfl) (@LoopParts.While.intro bareLoop ⟨.keyword .whileKw, "while", 1⟩
    ⟨.symbol .leftParen, "(", 1⟩ _ ⟨.symbol .rightParen, ")", 1⟩ _ rfl rfl
    (.given (List.cons_ne_nil _ _)) rfl round)

/-- A loop without a first clause: its expansion has braces around the body and the step only. -/
theorem loop_expands_bare :
    let session := Session.start (.start (.start none) (.start []))
    (∃ p : LoopParts, p.Formed ∧ p.Loop (wordsOf "for(;a;a)a;")) ∧
      (∃ t t' m m', parseProgram 0 (tokensOf "for(;a;a)a;") = ⟨.ok [t], m⟩ ∧
        parseProgram 0 (tokensOf "while(a)\x7ba;a;\x7d") = ⟨.ok [t'], m'⟩ ∧
        t.relabel .blank = t'.relabel .blank ∧
        FoundAlike Eq t.occurrences t'.occurrences (resolveProgram [t]) (resolveProgram [t'])) ∧
      RunsAlike Eq (session.run 9 "for(;a;a)a;") (session.run 9 "while(a)\x7ba;a;\x7d") := by
  intro session
  have lexical : lexicalIssuesOf "for(;a;a)a;" = [] ∧ lexicalIssuesOf "while(a)\x7ba;a;\x7d" = [] := by
    rw [lexicalIssuesOf, lexicalIssuesOf, items_of_bareLoop.1, items_of_bareLoop.2]
    exact ⟨rfl, rfl⟩
  have same (ts : List Token) : List.Forall₂ (Token.Alike Eq) ts ts :=
    List.forall₂_same.mpr fun _ _ => ⟨rfl, rfl, rfl⟩
  obtain ⟨parts, expands⟩ := loop_expands
  obtain ⟨parsed, ran⟩ := @expands Eq (fun _ => rfl) bareLoop bareLoop formed_bareLoop
    ⟨same _, same _, same _, same _⟩
  obtain ⟨t, t', ⟨m, h⟩, ⟨m', h'⟩, alike⟩ := @parsed (tokensOf "for(;a;a)a;")
    (tokensOf "while(a)\x7ba;a;\x7d") loop_bareLoop expansion_bareLoop 0 0
  have words : wordsIn (tokensOf "for(;a;a)a;") = ⟨.keyword .forKw, "for", 1⟩ ::
      (wordsIn (tokensOf "for(;a;a)a;")).tail := by
    rw [tokensOf, items_of_bareLoop.1]
    rfl
  exact ⟨parts words rfl h, ⟨t, t', m, m', h, h', alike⟩,
    @ran (.start none) (.start []) [] (List.forall_mem_nil _) _ _ lexical.1 lexical.2
      loop_bareLoop expansion_bareLoop 9⟩

end Lox
