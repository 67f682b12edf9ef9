import Lox.Proofs.Parser.Recovery

/-!
# Statements are isolated from each other

A source that is cut into segments has the errors of its segments, each of them read alone, and no other
(`recovery_isolates`). Where one statement is malformed, the diagnostics of the others stay what they are.
-/

namespace Lox

open Lox.Parser

/-- One identity for all occurrences. -/
def Relabeling.anonymous : Relabeling := ⟨fun _ => 0, fun line => line⟩

/-- The error with more tokens behind it. -/
def SyntaxError.followed (count : Nat) (e : SyntaxError) : SyntaxError :=
  { e with remaining := e.remaining + count }

/-- A statement on one level, well formed or not: tokens up to the first semicolon, with no brace, no
`else` and no `for` among them, and no other word that starts a statement but as the first one. -/
def IsSegment (ts : List Token) : Prop :=
  ∃ us semicolon, ts = us ++ [semicolon] ∧ semicolon.kind = .symbol .semicolon ∧ IsFront us

theorem IsSegment.ne_eof {ts : List Token} (h : IsSegment ts) : ∀ token ∈ ts, token.kind ≠ .eof := by
  obtain ⟨us, semicolon, rfl, hsemicolon, hus⟩ := h
  refine List.forall_mem_append.mpr ⟨fun token hmem hkind => ?_, fun token hmem => ?_⟩
  · exact hus.free token hmem (hkind ▸ by decide)
  · rw [List.mem_singleton.mp hmem, hsemicolon]
    decide

theorem IsSegment.ne_nil {ts : List Token} (h : IsSegment ts) : ts ≠ [] := by
  obtain ⟨us, semicolon, rfl, -⟩ := h
  exact List.append_ne_nil_of_right_ne_nil us (List.cons_ne_nil semicolon [])

/-- Nothing, or an end token with whatever stands behind it. -/
def IsClosing (closing : List Token) : Prop := ∀ token ∈ closing.head?, token.kind = .eof

/-- The errors of segments that are read alone, each at its place among all of them. -/
def isolated (n : OccurrenceId) (closing : List Token) : List (List Token) → List SyntaxError
  | [] => []
  | ts :: more =>
    (parseProgram n (ts ++ closing)).errors.map (SyntaxError.followed more.flatten.length) ++
      isolated n closing more

namespace Parser

variable {α : Type}

/-! ## Where a segment stands -/

/-- A segment does not start with `else`. -/
theorem notNext_else {segments : List (List Token)} (h : ∀ ts ∈ segments, IsSegment ts) :
    NotNext (.keyword .elseKw) segments.flatten := by
  cases segments with
  | nil => rintro _ ⟨⟩
  | cons ts more =>
    obtain ⟨us, semicolon, rfl, hsemicolon, hus⟩ := h ts List.mem_cons_self
    cases us with
    | nil => exact notNext_cons (by rw [hsemicolon]; decide)
    | cons first us =>
      exact notNext_cons fun hkind => hus.free first List.mem_cons_self (hkind ▸ by decide)

/-- What stands before the closing is left at the start. -/
theorem start_rest {closing : List Token} (hclosing : IsClosing closing) (n : OccurrenceId)
    {ts : List Token} (hts : ∀ token ∈ ts, token.kind ≠ .eof) :
    (State.start n (ts ++ closing)).rest = ts := by
  show (ts ++ closing).takeWhile (·.kind != .eof) = ts
  rw [List.takeWhile_append_of_pos fun token hmem => bne_iff_ne.mpr (hts token hmem)]
  cases closing with
  | nil => exact List.append_nil ts
  | cons first closing =>
    rw [List.takeWhile_cons_of_neg, List.append_nil]
    rw [hclosing first rfl]
    decide

/-- Identities that go on from elsewhere are all that changes. -/
theorem relabel_shift (s : State) (step : Nat) :
    s.relabel (.shift step id) = { s with nextId := s.nextId + step } := by
  have tokens : (Relabeling.shift step id).token = id := rfl
  have errors : relabelError (.shift step id) = id := rfl
  unfold State.relabel
  rw [tokens, errors, List.map_id, List.map_id]
  rfl

/-- Where the numbering begins shows in the identities only. -/
theorem declaration_numbered {s t : State} {o : Option Stmt} (h : declaration s = .ok o t)
    (n : OccurrenceId) :
    ∃ o' t', declaration { s with nextId := n } = .ok o' t' ∧ t'.rest = t.rest ∧
      noticed { s with nextId := n } (declaration { s with nextId := n }) = noticed s (declaration s) ∧
      o'.map (Stmt.relabel .anonymous) = o.map (Stmt.relabel .anonymous) := by
  -- both are the run from zero on with its identities shifted
  obtain ⟨o₀, t₀, h₀⟩ : ∃ o₀ t₀, declaration { s with nextId := 0 } = .ok o₀ t₀ := by
    cases h₀ : declaration { s with nextId := 0 } with
    | ok o₀ t₀ => exact ⟨o₀, t₀, rfl⟩
    | error e t₀ =>
      have shifted := declaration_relabels (Relabeling.steady_shift s.nextId id) { s with nextId := 0 }
      rw [relabel_shift, h₀, Nat.zero_add, h] at shifted
      nomatch shifted
  have shifted : ∀ n, declaration { s with nextId := n } =
      .ok (o₀.map (Stmt.relabel (.shift n id))) { t₀ with nextId := t₀.nextId + n } := fun n => by
    have run := declaration_relabels (Relabeling.steady_shift n id) { s with nextId := 0 }
    rw [relabel_shift, h₀, Nat.zero_add] at run
    rw [run, relabelEnd, relabel_shift]
  have before := shifted s.nextId
  rw [show declaration s = _ from before] at h ⊢
  cases h
  refine ⟨_, _, shifted n, rfl, by rw [shifted n]; rfl, ?_⟩
  rw [Option.map_map, Option.map_map]
  congr 1
  funext statement
  exact (Stmt.relabel_relabel _ _ statement).trans
    (Stmt.relabel_relabel .anonymous (.shift s.nextId id) statement).symm

/-- A segment is read behind others as it is read alone. -/
theorem declaration_alone {ts v : List Token} (hts : IsSegment ts) (hv : NotNext (.keyword .elseKw) v)
    {s s₀ : State} (ends : s.Ends) (ends₀ : s₀.Ends) (hs : s.rest = ts ++ v) (hs₀ : s₀.rest = ts) :
    ∃ o t o₀ t₀, declaration s = .ok o t ∧ declaration s₀ = .ok o₀ t₀ ∧ t.rest = v ∧ t₀.rest = [] ∧
      noticed s (declaration s) =
        (noticed s₀ (declaration s₀)).map (SyntaxError.followed v.length) ∧
      o.map (Stmt.relabel .anonymous) = o₀.map (Stmt.relabel .anonymous) := by
  obtain ⟨us, semicolon, rfl, hsemicolon, hus⟩ := hts
  have facing : Facing us semicolon [] v { s₀ with nextId := s.nextId } s :=
    ⟨hs₀, by rw [hs, List.append_assoc]; rfl, rfl, ends₀, ends⟩
  obtain ⟨o, t₁, t, h₁, h, ht₁, ht, hnoticed⟩ :=
    declaration_facing hsemicolon hus (by rintro _ ⟨⟩) hv facing
  obtain ⟨o₀, t₀, h₀, ht₀, hnoticed₀, ho⟩ := declaration_numbered h₁ s₀.nextId
  refine ⟨o, t, o₀, t₀, h, h₀, ht, ht₀.trans ht₁, ?_, ho.symm⟩
  rw [hnoticed, ← hnoticed₀]
  rfl

/-! ## One segment after the other -/

theorem declarationStep_run {s t : State} {o : Option Stmt} (hs : s.rest ≠ [])
    (h : declaration s = .ok o t) : declarationStep s = .ok (some o) t :=
  (declarationStep_take hs).trans (map_ok h)

/-- What is collected up to the end of a source is its program. -/
theorem program_of_collects {s t : State} {read : List (Option Stmt)}
    (h : Collects (fun _ => declarationStep) 0 s read t) :
    program s = .ok (read.filterMap id) t := by
  rw [program_eq]
  exact bind_ok (collect_of_collects h)

section

variable {closing : List Token} (hclosing : IsClosing closing) (n : OccurrenceId)

include hclosing

/-- What is reported of a segment and made of it. -/
theorem parse_segment {ts : List Token} (hts : IsSegment ts) {o : Option Stmt} {t : State}
    (h : declaration (State.start n (ts ++ closing)) = .ok o t) (ht : t.rest = []) :
    (parseProgram n (ts ++ closing)).errors =
        noticed (State.start n (ts ++ closing)) (declaration (State.start n (ts ++ closing))) ∧
      ∀ {body}, (parseProgram n (ts ++ closing)).result = .ok body → body = o.toList := by
  have hrest := start_rest hclosing n hts.ne_eof
  have collects : Collects (fun _ => declarationStep) 0 (State.start n (ts ++ closing)) [o] t := by
    refine .item (declarationStep_run (by rw [hrest]; exact hts.ne_nil) h) ?_ (.stop (declarationStep_end ht))
    rw [ht, hrest]
    exact List.length_pos_iff.mpr hts.ne_nil
  have run := program_of_collects collects
  refine ⟨(run_errors run).trans ?_, fun hbody => ?_⟩
  · exact errors_of_ok h
  · rw [(run_eq_of_ok run hbody).1]
    cases o <;> rfl

/-- Segments are collected one after the other, each with the errors that it has alone. -/
theorem segments_collect : ∀ (segments : List (List Token)), (∀ ts ∈ segments, IsSegment ts) →
    ∀ (i : Nat) {s : State}, s.Ends → s.rest = segments.flatten →
      ∃ read t, Collects (fun _ => declarationStep) i s read t ∧
        t.errors = s.errors ++ isolated n closing segments ∧
        ∀ bodies, List.Forall₂ (fun ts body => (parseProgram n (ts ++ closing)).result = .ok body)
          segments bodies → Stmt.relabelAll .anonymous (read.filterMap id) =
            Stmt.relabelAll .anonymous bodies.flatten
  | [], _, i, s, _, hs => by
    refine ⟨[], s, .stop (declarationStep_end hs), (List.append_nil _).symm, fun bodies h => ?_⟩
    cases h
    rfl
  | ts :: more, hsegments, i, s, ends, hs => by
    obtain ⟨hts, hmore⟩ := List.forall_mem_cons.mp hsegments
    -- the segment is read as it is alone, since no `else` stands behind it
    obtain ⟨o, t, o₀, t₀, h, h₀, ht, ht₀, hnoticed, ho⟩ := declaration_alone hts (notNext_else hmore)
      ends (State.start_ends n (ts ++ closing)) hs (start_rest hclosing n hts.ne_eof)
    obtain ⟨herrors, hbody⟩ := parse_segment hclosing n hts h₀ ht₀
    obtain ⟨read, t', collects, herrors', hbodies⟩ := segments_collect more hmore (i + 1)
      ((congrArg Token.kind (Forward.of_ok h).ending).trans ends) ht
    refine ⟨o :: read, t', .item (declarationStep_run ?_ h) ?_ collects, ?_, fun bodies hall => ?_⟩
    · rw [hs]
      exact List.append_ne_nil_of_left_ne_nil hts.ne_nil _
    · rw [ht, hs, List.flatten_cons, List.length_append]
      have := List.length_pos_iff.mpr hts.ne_nil
      omega
    · rw [herrors', errors_of_ok h, hnoticed, isolated, herrors, List.append_assoc]
    · cases hall with
      | cons hfirst hall =>
        rename_i body bodies
        obtain rfl := hbody hfirst
        have first : (o.toList).map (Stmt.relabel .anonymous) =
            (o₀.toList).map (Stmt.relabel .anonymous) := by
          rw [← Option.toList_map, ho, Option.toList_map]
        have later := hbodies bodies hall
        rw [Stmt.relabelAll_eq_map, Stmt.relabelAll_eq_map] at later ⊢
        rw [List.flatten_cons, List.map_append, ← first, ← later, ← List.map_append]
        cases o <;> rfl

end

/-- Segments without errors have none among others. -/
theorem isolated_quiet {n : OccurrenceId} {closing : List Token} {segments : List (List Token)}
    {bodies : List (List Stmt)}
    (h : List.Forall₂ (fun ts body => (parseProgram n (ts ++ closing)).result = .ok body) segments
      bodies) : isolated n closing segments = [] := by
  induction h with
  | nil => rfl
  | cons hfirst _ ih =>
    rw [isolated, ih, Outcome.errors, hfirst]
    rfl

/-- Where an error is among others does not show in its diagnostic. -/
theorem isolated_diagnostics (n : OccurrenceId) (closing : List Token) (segments : List (List Token)) :
    (isolated n closing segments).map SyntaxError.diagnostic = segments.flatMap fun ts =>
      (parseProgram n (ts ++ closing)).errors.map SyntaxError.diagnostic := by
  induction segments with
  | nil => rfl
  | cons ts more ih =>
    rw [isolated, List.map_append, List.map_map, ih, List.flatMap_cons]
    rfl

end Parser

/-- Segments one behind the other have the errors that they have alone, in this order and each at its
place; and if they have none, the program is made of theirs. -/
theorem recovery_isolates (n m : OccurrenceId) {closing closing' : List Token}
    (hclosing : IsClosing closing) (hclosing' : IsClosing closing') (segments : List (List Token))
    (h : ∀ ts ∈ segments, IsSegment ts) :
    (parseProgram n (segments.flatten ++ closing)).errors = isolated m closing' segments ∧
    (parseProgram n (segments.flatten ++ closing)).errors.map SyntaxError.diagnostic =
      segments.flatMap (fun ts => (parseProgram m (ts ++ closing')).errors.map SyntaxError.diagnostic) ∧
    ∀ bodies, List.Forall₂ (fun ts body => (parseProgram m (ts ++ closing')).result = .ok body)
      segments bodies →
      ∃ body, (parseProgram n (segments.flatten ++ closing)).result = .ok body ∧
        Stmt.relabelAll .anonymous body = Stmt.relabelAll .anonymous bodies.flatten := by
  have apart : ∀ token ∈ segments.flatten, token.kind ≠ .eof := fun token hmem => by
    obtain ⟨ts, hts, htoken⟩ := List.mem_flatten.mp hmem
    exact (h ts hts).ne_eof token htoken
  obtain ⟨read, t, collects, herrors, hbodies⟩ := segments_collect hclosing' m segments h 0
    (State.start_ends n (segments.flatten ++ closing)) (start_rest hclosing n apart)
  have herrors : t.errors = isolated m closing' segments := herrors
  have run := program_of_collects collects
  have reported : (parseProgram n (segments.flatten ++ closing)).errors = isolated m closing' segments :=
    (run_errors run).trans herrors
  refine ⟨reported, by rw [reported, isolated_diagnostics], fun bodies hall => ?_⟩
  exact ⟨_, run_of_quiet run (herrors.trans (isolated_quiet hall)), hbodies bodies hall⟩

/-- A variable without a name, a value with another one behind it, and a print statement. -/
theorem recovery_isolates_three :
    let var : Token := ⟨.keyword .varKw, "var", 1⟩
    let print : Token := ⟨.keyword .printKw, "print", 1⟩
    let a : Token := ⟨.identifier, "a", 1⟩
    let equal : Token := ⟨.symbol .equal, "=", 1⟩
    let semicolon : Token := ⟨.symbol .semicolon, ";", 1⟩
    let segments := [[var, equal, a, semicolon], [print, a, a, semicolon], [print, a, semicolon]]
    IsClosing [Token.eof 1] ∧ IsClosing [] ∧ (∀ ts ∈ segments, IsSegment ts) ∧
      (parseProgram 0 (segments.flatten ++ [Token.eof 1])).errors =
        [⟨10, equal, .expected .variableName⟩, ⟨5, a, .expected (.mark .semicolon .afterValue)⟩] := by
  intro var print a equal semicolon segments
  have eof : IsClosing [Token.eof 1] := by
    rintro _ ⟨⟩
    rfl
  have nothing : IsClosing [] := by rintro _ ⟨⟩
  have all : ∀ ts ∈ segments, IsSegment ts := by
    simp only [segments, List.forall_mem_cons]
    refine ⟨⟨[var, equal, a], semicolon, rfl, rfl, by decide, by decide⟩,
      ⟨[print, a, a], semicolon, rfl, rfl, by decide, by decide⟩,
      ⟨[print, a], semicolon, rfl, rfl, by decide, by decide⟩, List.forall_mem_nil _⟩
  exact ⟨eof, nothing, all, (recovery_isolates 0 0 eof nothing segments all).1.trans rfl⟩

end Lox
