import Lox.Proofs.Parser.Depth
import Lox.Proofs.Parser.Noticing

/-!
# Two sources abreast

Two sources that are the same up to some token, whatever comes behind it. A parser is `Local` if it reads
them alike up to there: as long as the token is not taken, the runs are the same, and an error that is
noticed in front of it or at it in one source keeps the other one from being read without errors as well.
Parsers of single tokens are local, and so are sequences and loops of local parsers.
-/

namespace Lox

/-- The error in a source that has `v'` behind some token where this one has `v`. -/
def SyntaxError.moved (v v' : List Token) (e : SyntaxError) : SyntaxError :=
  { e with remaining := e.remaining - v.length + v'.length }

end Lox

namespace Lox.Parser

variable {α β : Type}

/-! ## Two sources -/

/-- The same tokens are left up to one that is still to be taken, and behind it `v` in one source and
`v'` in the other. -/
structure State.Abreast (v v' : List Token) (s s' : State) : Prop where
  tokens : ∃ us token, s.rest = us ++ token :: v ∧ s'.rest = us ++ token :: v'
  nextId : s'.nextId = s.nextId
  ends : s.Ends
  ends' : s'.Ends

/-- What a run succeeds with. -/
def value? : EStateM.Result SyntaxError State α → Option α
  | .ok a _ => some a
  | .error _ _ => none

/-- Two runs come to the same, with the same tokens left up to the one in question. -/
structure Alike (v v' : List Token) (s s' : State) (r r' : EStateM.Result SyntaxError State α) :
    Prop where
  value : value? r' = value? r
  abreast : (last r).Abreast v v' (last r')
  noticed : noticed s' r' = (noticed s r).map (SyntaxError.moved v v')

/-- An expectation of the parser is about the next token or one behind it. -/
class Located (p : Parser α) : Prop where
  located {s : State} {e : SyntaxError} : s.Ends → e ∈ noticed s (p s) → e.IsExpectation →
    e.remaining ≤ s.rest.length

/-- One parser reads the first source as the other one reads the second. -/
structure Parallel (v v' : List Token) (p q : Parser α) : Prop where
  /-- As long as the token is not taken, the runs are alike. -/
  alike {s s' : State} : s.Abreast v v' s' → v.length < (last (p s)).rest.length →
    Alike v v' s s' (p s) (q s')
  /-- An expectation up to the token is an error in the other source. -/
  fails {s s' : State} {e : SyntaxError} : s.Abreast v v' s' → e ∈ (noticed s (p s)).head? →
    e.IsExpectation → v.length < e.remaining → noticed s' (q s') ≠ []

/-- The parser does not depend on what stands behind the next token. -/
class Local (p : Parser α) : Prop extends Located p where
  parallel (v v' : List Token) : Parallel v v' p p

section

variable {v v' : List Token} {s s' : State}

theorem State.Abreast.here (h : s.Abreast v v' s') : s'.here = s.here := by
  obtain ⟨_ | ⟨first, us⟩, token, hs, hs'⟩ := h.tokens <;> rw [here_cons hs, here_cons hs']

theorem State.Abreast.sees (h : s.Abreast v v' s') (kind : TokenKind) : s'.sees kind = s.sees kind := by
  obtain ⟨_ | ⟨first, us⟩, token, hs, hs'⟩ := h.tokens <;> rw [sees_cons hs, sees_cons hs']

theorem State.Abreast.nonempty (h : s.Abreast v v' s') :
    s.rest.isEmpty = false ∧ s'.rest.isEmpty = false := by
  obtain ⟨us, token, hs, hs'⟩ := h.tokens
  rw [hs, hs']
  cases us <;> exact ⟨rfl, rfl⟩

theorem State.Abreast.error (h : s.Abreast v v' s') (issue : SyntaxIssue) :
    s'.error issue = (s.error issue).moved v v' := by
  have length : s'.rest.length = s.rest.length - v.length + v'.length := by
    obtain ⟨us, token, hs, hs'⟩ := h.tokens
    rw [hs, hs']
    simp only [List.length_append, List.length_cons]
    omega
  simp only [State.error, SyntaxError.moved, h.here, length]

/-- Taking as many tokens on both sides, but not the one in question. -/
theorem State.Abreast.take (h : s.Abreast v v' s') {rest rest' : List Token}
    (htake : ∃ taken, s.rest = taken ++ rest ∧ s'.rest = taken ++ rest')
    (hlength : v.length < rest.length) :
    { s with rest := rest : State }.Abreast v v' { s' with rest := rest' } := by
  obtain ⟨us, token, hs, hs'⟩ := h.tokens
  obtain ⟨taken, htaken, htaken'⟩ := htake
  refine ⟨?_, h.nextId, h.ends, h.ends'⟩
  rw [hs] at htaken
  rw [hs'] at htaken'
  rcases List.append_eq_append_iff.mp htaken with ⟨ws, rfl, hws⟩ | ⟨ws, rfl, rfl⟩
  · rcases ws with _ | ⟨first, ws⟩
    · exact ⟨[], token, hws.symm, by simpa using htaken'.symm⟩
    · -- more was taken than there is in front of the token
      have := congrArg List.length hws
      simp only [List.length_cons, List.length_append] at this
      omega
  · rw [List.append_assoc] at htaken'
    exact ⟨ws, token, rfl, (List.append_cancel_left htaken').symm⟩

theorem Alike.ok {t : State} {a : α} {r' : EStateM.Result SyntaxError State α}
    (h : Alike v v' s s' (.ok a t) r') : ∃ t', r' = .ok a t' ∧ t.Abreast v v' t' := by
  cases r' with
  | error e' t' => nomatch h.value
  | ok a' t' =>
    obtain rfl : a' = a := Option.some.inj h.value
    exact ⟨t', rfl, h.abreast⟩

theorem Alike.error {t : State} {e : SyntaxError} {r' : EStateM.Result SyntaxError State α}
    (h : Alike v v' s s' (.error e t) r') : ∃ e' t', r' = .error e' t' ∧ t.Abreast v v' t' := by
  cases r' with
  | ok a' t' => nomatch h.value
  | error e' t' => exact ⟨e', t', rfl, h.abreast⟩

/-- Runs that notice nothing. -/
theorem Alike.quiet {t t' : State} (h : t.Abreast v v' t') (ht : t.errors = s.errors)
    (ht' : t'.errors = s'.errors) (a : α) :
    Alike v v' s s' (.ok a t : EStateM.Result SyntaxError State α) (.ok a t') :=
  ⟨rfl, h, by rw [noticed_quiet ht, noticed_quiet ht']; rfl⟩

end

/-! ## Sequences -/

section

variable {v v' : List Token} {p q : Parser α}

/-- Parsers that notice nothing are parallel if their runs are alike. -/
theorem Parallel.of_quiet (quiet : ∀ s, noticed s (p s) = [])
    (alike : ∀ {s s'}, s.Abreast v v' s' → v.length < (last (p s)).rest.length →
      Alike v v' s s' (p s) (q s')) : Parallel v v' p q where
  alike := alike
  fails _ h := by
    rw [quiet] at h
    nomatch h

/-- A parser that notices nothing is local if its runs are alike. -/
theorem Local.of_quiet (quiet : ∀ s, noticed s (p s) = [])
    (alike : ∀ {v v' s s'}, s.Abreast v v' s' → v.length < (last (p s)).rest.length →
      Alike v v' s s' (p s) (p s')) : Local p where
  located _ h := by
    rw [quiet] at h
    nomatch h
  parallel v v' := .of_quiet quiet alike

/-- Runs that are alike at first and go on alike. -/
theorem Alike.bind [Forward p] [Forward q] {f g : α → Parser β} [∀ a, Forward (f a)]
    [∀ a, Forward (g a)] {s s' : State} (first : Alike v v' s s' (p s) (q s'))
    (second : ∀ {a t t'}, p s = .ok a t → t.Abreast v v' t' → Alike v v' t t' (f a t) (g a t')) :
    Alike v v' s s' ((p >>= f) s) ((q >>= g) s') := by
  cases hrun : p s with
  | ok a t =>
    obtain ⟨t', hrun', between⟩ := (hrun ▸ first).ok
    have second := second hrun between
    refine ⟨?_, ?_, ?_⟩
    · rw [bind_ok hrun, bind_ok hrun']
      exact second.value
    · rw [bind_ok hrun, bind_ok hrun']
      exact second.abreast
    · rw [noticed_bind_ok hrun, noticed_bind_ok hrun', List.map_append, ← second.noticed, first.noticed]
  | error e t =>
    obtain ⟨e', t', hrun', between⟩ := (hrun ▸ first).error
    refine ⟨?_, ?_, ?_⟩
    · rw [bind_error hrun, bind_error hrun']
      rfl
    · rw [bind_error hrun, bind_error hrun']
      exact between
    · rw [noticed_bind_error hrun, noticed_bind_error hrun', first.noticed]

/-- What comes next leaves no more tokens. -/
theorem length_last_bind_le (p : Parser α) (f : α → Parser β) [∀ a, Forward (f a)] (s : State) :
    (last ((p >>= f) s)).rest.length ≤ (last (p s)).rest.length := by
  cases hrun : p s with
  | ok a t =>
    rw [bind_ok hrun]
    exact ((inferInstance : Forward (f a)).leads t).rest.length_le
  | error e t =>
    rw [bind_error hrun]
    exact Nat.le_refl _

theorem Parallel.bind [Forward p] [Forward q] {f g : α → Parser β} [∀ a, Forward (f a)]
    [∀ a, Forward (g a)] [hl : ∀ a, Located (f a)] (h : Parallel v v' p q)
    (hfg : ∀ a, Parallel v v' (f a) (g a)) : Parallel v v' (p >>= f) (q >>= g) where
  alike {s s'} abreast hlast := by
    have stays := Nat.lt_of_lt_of_le hlast (length_last_bind_le p f s)
    refine (h.alike abreast stays).bind fun {a t t'} hrun between => (hfg a).alike between ?_
    rwa [bind_ok hrun] at hlast
  fails {s s' e} abreast he hexpected hremaining := by
    cases hrun : p s with
    | error e' t =>
      rw [noticed_bind_error hrun] at he
      exact noticed_bind_ne_nil (h.fails abreast he hexpected hremaining)
    | ok a t =>
      rw [noticed_bind_ok hrun] at he
      cases hquiet : noticed s (p s) with
      | cons first more =>
        rw [hquiet] at he
        exact noticed_bind_ne_nil (h.fails abreast (by rw [hquiet]; exact he) hexpected hremaining)
      | nil =>
        -- the error is one of the second parser, and the first one has not come as far as the token
        rw [hquiet, List.nil_append] at he
        have ends : t.Ends :=
          (congrArg Token.kind (Forward.of_ok hrun).ending).trans abreast.ends
        have located := (hl a).located ends (List.mem_of_mem_head? he) hexpected
        have first := h.alike abreast (by rw [hrun]; exact Nat.lt_of_lt_of_le hremaining located)
        obtain ⟨t', hrun', between⟩ := (hrun ▸ first).ok
        rw [noticed_bind_ok hrun']
        exact List.append_ne_nil_of_right_ne_nil _
          ((hfg a).fails between he hexpected hremaining)

/-- Where the state is looked at, it is one of two states that belong together. -/
theorem Parallel.get {f g : State → Parser α}
    (h : ∀ {s s' : State}, s.Abreast v v' s' → Parallel v v' (f s) (g s')) :
    Parallel v v' ((MonadState.get : Parser State) >>= f) ((MonadState.get : Parser State) >>= g) where
  alike abreast hlast := (h abreast).alike abreast hlast
  fails abreast he := (h abreast).fails abreast he

end

instance located_bind (p : Parser α) (f : α → Parser β) [Forward p] [∀ a, Forward (f a)]
    [hp : Located p] [hf : ∀ a, Located (f a)] : Located (p >>= f) where
  located {s e} ends h he := by
    cases hrun : p s with
    | ok a t =>
      have leads := Forward.of_ok hrun
      rw [noticed_bind_ok hrun] at h
      rcases List.mem_append.mp h with h | h
      · exact hp.located ends h he
      · have ends : t.Ends := (congrArg Token.kind leads.ending).trans ends
        exact Nat.le_trans ((hf a).located ends h he) leads.rest.length_le
    | error e' t =>
      rw [noticed_bind_error hrun] at h
      exact hp.located ends h he

instance local_bind (p : Parser α) (f : α → Parser β) [Forward p] [∀ a, Forward (f a)] [Local p]
    [hf : ∀ a, Local (f a)] : Local (p >>= f) where
  parallel v v' := (Local.parallel v v').bind fun a => (hf a).parallel v v'

instance local_pure (a : α) : Local (pure a : Parser α) :=
  .of_quiet (fun _ => noticed_quiet rfl) fun h _ => .quiet h rfl rfl a

instance local_map (f : α → β) (p : Parser α) [Forward p] [Local p] : Local (f <$> p) :=
  inferInstanceAs (Local (p >>= fun a => pure (f a)))

instance located_ite (c : Prop) [Decidable c] (p q : Parser α) [Located p] [Located q] :
    Located (if c then p else q) := by
  split <;> infer_instance

instance local_ite (c : Prop) [Decidable c] (p q : Parser α) [Local p] [Local q] :
    Local (if c then p else q) := by
  split <;> infer_instance

/-- A parser that does the same as local parsers do, any two of its states as the same one. -/
theorem Local.of_runs {p : Parser α}
    (h : ∀ {s s' : State}, s.Ends → s'.Ends → ∃ q, Local q ∧ p s = q s ∧ p s' = q s') : Local p where
  located ends he := by
    obtain ⟨q, hq, run, -⟩ := h ends ends
    rw [run] at he
    exact hq.located ends he
  parallel v v' :=
    { alike := fun abreast hlast => by
        obtain ⟨q, hq, run, run'⟩ := h abreast.ends abreast.ends'
        rw [run] at hlast
        rw [run, run']
        exact (hq.parallel v v').alike abreast hlast
      fails := fun abreast he => by
        obtain ⟨q, hq, run, run'⟩ := h abreast.ends abreast.ends'
        rw [run] at he
        rw [run']
        exact (hq.parallel v v').fails abreast he }

/-! ## Single tokens -/

instance local_here : Local here :=
  .of_quiet (fun _ => noticed_quiet rfl) fun {_ _ s s'} h _ => by
    rw [here_run s, here_run s', h.here]
    exact .quiet h rfl rfl s.here

instance local_atEnd : Local atEnd :=
  .of_quiet (fun _ => noticed_quiet rfl) fun {_ _ s s'} h _ => by
    rw [atEnd_run s, atEnd_run s', h.nonempty.1, h.nonempty.2]
    exact .quiet h rfl rfl false

instance local_sees (kind : TokenKind) : Local (sees kind) :=
  .of_quiet (fun _ => noticed_quiet rfl) fun {_ _ s s'} h _ => by
    rw [sees_run kind s, sees_run kind s', h.sees]
    exact .quiet h rfl rfl _

instance local_freshId : Local freshId :=
  .of_quiet (fun _ => noticed_quiet rfl) fun {_ _ s s'} h _ => by
    rw [freshId_run s, freshId_run s', h.nextId]
    refine Alike.quiet ?_ ?_ ?_ _
    · exact ⟨h.tokens, rfl, h.ends, h.ends'⟩
    · rfl
    · rfl

instance local_fail (issue : SyntaxIssue) : Local (fail issue : Parser α) where
  located {s e} _ h _ := by
    rw [fail_run, noticed_error (List.append_nil _).symm, List.nil_append, List.mem_singleton] at h
    rw [h]
    exact Nat.le_refl _
  parallel v v' :=
    { alike := fun h _ => by
        rw [fail_run, fail_run]
        refine ⟨rfl, h, ?_⟩
        rw [noticed_error (List.append_nil _).symm, noticed_error (List.append_nil _).symm, h.error]
        rfl
      fails := fun _ _ _ _ => by
        rw [fail_run, noticed_error (List.append_nil _).symm]
        exact List.cons_ne_nil _ _ }

instance local_report (issue : SyntaxIssue) : Local (report issue) where
  located {s e} _ h _ := by
    rw [report_run, noticed_ok rfl, List.mem_singleton] at h
    rw [h]
    exact Nat.le_refl _
  parallel v v' :=
    { alike := fun h _ => by
        rw [report_run, report_run]
        refine ⟨rfl, ⟨h.tokens, h.nextId, h.ends, h.ends'⟩, ?_⟩
        rw [noticed_ok rfl, noticed_ok rfl, h.error]
        rfl
      fails := fun _ _ _ _ => by
        rw [report_run, noticed_ok rfl]
        exact List.cons_ne_nil _ _ }

/-- What takes tokens from the front, the same ones on both sides. -/
theorem Local.of_taking {p : Parser α} (taken : List Token → α) (left : List Token → List Token)
    (run : ∀ s, p s = .ok (taken s.rest) { s with rest := left s.rest })
    (same : ∀ {us token v v'}, v.length < (left (us ++ token :: v)).length →
      taken (us ++ token :: v') = taken (us ++ token :: v) ∧
        ∃ ws, us ++ token :: v = ws ++ left (us ++ token :: v) ∧
          us ++ token :: v' = ws ++ left (us ++ token :: v')) : Local p :=
  .of_quiet (fun s => by rw [run]; exact noticed_quiet rfl) fun {v v' s s'} h hlast => by
    rw [run s] at hlast ⊢
    rw [run s']
    obtain ⟨us, token, hs, hs'⟩ := h.tokens
    have hlast : v.length < (left s.rest).length := hlast
    rw [hs] at hlast
    obtain ⟨htaken, hleft⟩ := @same us token v v' hlast
    rw [← hs, ← hs'] at htaken hleft
    rw [← hs] at hlast
    rw [htaken]
    refine Alike.quiet (h.take hleft hlast) ?_ ?_ _ <;> rfl

instance local_skip : Local skip := by
  refine .of_taking (fun _ => ()) List.tail skip_run fun {us token v v'} _ => ⟨rfl, ?_⟩
  cases us with
  | nil => exact ⟨[token], rfl, rfl⟩
  | cons first us => exact ⟨[first], rfl, rfl⟩

instance local_acceptWhile (test : Token → Bool) : Local (acceptWhile test) := by
  refine .of_taking (·.takeWhile test) (·.dropWhile test) (acceptWhile_run test)
    fun {us token v v'} hlength => ?_
  have same : (us ++ token :: v').takeWhile test = (us ++ token :: v).takeWhile test := by
    induction us with
    | nil =>
      cases htoken : test token with
      | false => simp [htoken]
      | true =>
        rw [List.nil_append, List.dropWhile_cons_of_pos htoken] at hlength
        exact absurd (List.dropWhile_suffix test).length_le (Nat.not_le.mpr hlength)
    | cons first us ih =>
      cases hfirst : test first with
      | false => simp [hfirst]
      | true =>
        simp only [List.cons_append, List.dropWhile_cons_of_pos hfirst,
          List.takeWhile_cons_of_pos hfirst] at hlength ⊢
        rw [ih hlength]
  refine ⟨same, (us ++ token :: v).takeWhile test, List.takeWhile_append_dropWhile.symm, ?_⟩
  rw [← same]
  exact List.takeWhile_append_dropWhile.symm

instance local_acceptIf (test : Token → Bool) : Local (acceptIf test) := by
  refine .of_taking (fun rest => rest.head?.filter test)
    (fun rest => if rest.head?.any test then rest.tail else rest) (fun s => ?_)
    fun {us token v v'} _ => ?_
  · rw [acceptIf_run]
    obtain ⟨_ | ⟨token, rest⟩, ending, nextId, errors⟩ := s
    · rfl
    · cases htoken : test token <;> simp [htoken, Option.filter]
  · cases us with
    | nil =>
      cases htoken : test token with
      | false => exact ⟨rfl, [], by simp [htoken]⟩
      | true => exact ⟨rfl, [token], by simp [htoken]⟩
    | cons first us =>
      cases hfirst : test first with
      | false => exact ⟨rfl, [], by simp [hfirst]⟩
      | true => exact ⟨rfl, [first], by simp [hfirst]⟩

instance local_accept (kind : TokenKind) : Local (accept kind) :=
  inferInstanceAs (Local (sees kind >>= fun b => if b then _ else _))

instance local_expect (kind : TokenKind) (what : Expectation) : Local (expect kind what) :=
  inferInstanceAs (Local (sees kind >>= fun b => if b then _ else _))

instance local_expectMark (mark : Symbol) (place : MarkPlace) : Local (expectMark mark place) :=
  local_expect _ _

/-! ## Loops -/

/-- A step of a loop takes a token unless it declines, and it declines at the end. -/
class Steps (step : Parser (Option α)) : Prop where
  shorter {s t : State} {a : α} : step s = .ok (some a) t → t.rest.length < s.rest.length
  declines {s : State} : s.rest = [] → step s = .ok none s

instance local_iterateAlong (step : α → Parser (Option α)) [∀ a, Forward (step a)]
    [h : ∀ a, Local (step a)] (left : List Token) (a : α) : Local (iterateAlong step left a) := by
  induction left generalizing a with
  | nil => exact inferInstanceAs (Local (pure a : Parser α))
  | cons _ left ih =>
    unfold iterateAlong
    refine @local_bind _ _ _ _ inferInstance (fun next => ?_) (h a) fun next => ?_
    · exact forward_option inferInstance inferInstance next
    · cases next with
      | none => exact local_pure a
      | some b => exact ih b

theorem iterateAlong_end {step : α → Parser (Option α)} [h : ∀ a, Steps (step a)] {s : State}
    (hs : s.rest = []) (left : List Token) (a : α) : iterateAlong step left a s = .ok a s := by
  cases left with
  | nil => rfl
  | cons _ left =>
    unfold iterateAlong
    rw [bind_ok ((h a).declines hs)]
    rfl

/-- With a bound for each token that is left, a loop is not cut off. -/
theorem iterateAlong_run {step : α → Parser (Option α)} [h : ∀ a, Steps (step a)]
    {left left' : List Token} {a : α} {s : State} (hleft : s.rest.length ≤ left.length)
    (hleft' : s.rest.length ≤ left'.length) : iterateAlong step left a s = iterateAlong step left' a s := by
  induction left generalizing left' a s with
  | nil =>
    have hs := List.length_eq_zero_iff.mp (Nat.le_zero.mp hleft)
    rw [iterateAlong_end hs, iterateAlong_end hs]
  | cons _ left ih =>
    cases left' with
    | nil =>
      have hs := List.length_eq_zero_iff.mp (Nat.le_zero.mp hleft')
      rw [iterateAlong_end hs, iterateAlong_end hs]
    | cons _ left' =>
      unfold iterateAlong
      cases hstep : step a s with
      | error e t => rw [bind_error hstep, bind_error hstep]
      | ok next t =>
        rw [bind_ok hstep, bind_ok hstep]
        cases next with
        | none => rfl
        | some b =>
          have shorter := (h a).shorter hstep
          rw [List.length_cons] at hleft hleft'
          exact ih (by omega) (by omega)

instance local_iterate (step : α → Parser (Option α)) [∀ a, Forward (step a)] [∀ a, Local (step a)]
    [∀ a, Steps (step a)] (a : α) : Local (iterate step a) :=
  .of_runs fun {s s'} _ _ => by
    refine ⟨iterateAlong step (s.rest ++ s'.rest) a, inferInstance, ?_, ?_⟩
    · exact iterateAlong_run (Nat.le_refl _) (by rw [List.length_append]; omega)
    · exact iterateAlong_run (Nat.le_refl _) (by rw [List.length_append]; omega)

instance local_collectAlong (step : Nat → Parser (Option α)) [∀ i, Forward (step i)]
    [h : ∀ i, Local (step i)] (left : List Token) (index : Nat) :
    Local (collectAlong step left index) := by
  induction left generalizing index with
  | nil => exact inferInstanceAs (Local (pure [] : Parser (List α)))
  | cons _ left ih =>
    unfold collectAlong
    refine @local_bind _ _ _ _ inferInstance (fun next => ?_) (h index) fun next => ?_
    · exact forward_option inferInstance (fun _ => inferInstance) next
    · cases next with
      | none => exact local_pure []
      | some a => exact @local_bind _ _ _ _ inferInstance inferInstance (ih (index + 1)) fun _ => local_pure _

theorem collectAlong_end {step : Nat → Parser (Option α)} [h : ∀ i, Steps (step i)] {s : State}
    (hs : s.rest = []) (left : List Token) (i : Nat) : collectAlong step left i s = .ok [] s := by
  cases left with
  | nil => rfl
  | cons _ left =>
    unfold collectAlong
    rw [bind_ok ((h i).declines hs)]
    rfl

/-- With a bound for each token that is left, a collecting loop is not cut off. -/
theorem collectAlong_run {step : Nat → Parser (Option α)} [h : ∀ i, Steps (step i)]
    {left left' : List Token} {i : Nat} {s : State} (hleft : s.rest.length ≤ left.length)
    (hleft' : s.rest.length ≤ left'.length) :
    collectAlong step left i s = collectAlong step left' i s := by
  induction left generalizing left' i s with
  | nil =>
    have hs := List.length_eq_zero_iff.mp (Nat.le_zero.mp hleft)
    rw [collectAlong_end hs, collectAlong_end hs]
  | cons _ left ih =>
    cases left' with
    | nil =>
      have hs := List.length_eq_zero_iff.mp (Nat.le_zero.mp hleft')
      rw [collectAlong_end hs, collectAlong_end hs]
    | cons _ left' =>
      unfold collectAlong
      cases hstep : step i s with
      | error e t => rw [bind_error hstep, bind_error hstep]
      | ok next t =>
        rw [bind_ok hstep, bind_ok hstep]
        cases next with
        | none => rfl
        | some a =>
          have shorter := (h i).shorter hstep
          rw [List.length_cons] at hleft hleft'
          have same : collectAlong step left (i + 1) t = collectAlong step left' (i + 1) t :=
            ih (by omega) (by omega)
          dsimp only
          cases hmore : collectAlong step left (i + 1) t with
          | ok more u => rw [bind_ok hmore, bind_ok (same.symm.trans hmore)]
          | error e u => rw [bind_error hmore, bind_error (same.symm.trans hmore)]

instance local_collect (step : Nat → Parser (Option α)) [∀ i, Forward (step i)]
    [∀ i, Local (step i)] [∀ i, Steps (step i)] : Local (collect step) :=
  .of_runs fun {s s'} _ _ => by
    refine ⟨collectAlong step (s.rest ++ s'.rest) 0, inferInstance, ?_, ?_⟩
    · exact collectAlong_run (Nat.le_refl _) (by rw [List.length_append]; omega)
    · exact collectAlong_run (Nat.le_refl _) (by rw [List.length_append]; omega)

/-! ### Steps -/

instance steps_none : Steps (pure none : Parser (Option α)) where
  shorter h := nomatch h
  declines _ := rfl

/-- Behind a token that is taken the first parser has run, and else the other one. -/
theorem accept_cases {kind : TokenKind} {p q : Parser α} {s t : State} {a : α}
    (h : (accept kind >>= fun taken => if taken then p else q) s = .ok a t) :
    (∃ token rest, s.rest = token :: rest ∧ p { s with rest := rest } = .ok a t) ∨
      q s = .ok a t := by
  cases hsees : s.sees kind with
  | true =>
    obtain ⟨token, rest, hrest, hkind⟩ := exists_of_sees hsees
    rw [bind_ok (accept_take hrest hkind), if_pos rfl] at h
    exact .inl ⟨token, rest, hrest, h⟩
  | false =>
    rw [bind_ok (accept_leave (notNext_of_sees hsees)), if_neg Bool.false_ne_true] at h
    exact .inr h

/-- A step that takes a token first, or else is another step. -/
instance steps_accept (kind : TokenKind) (p q : Parser (Option α)) [Forward p] [hq : Steps q] :
    Steps (accept kind >>= fun taken => if taken then p else q) where
  shorter {s t a} h := by
    obtain ⟨token, rest, hrest, hrun⟩ | hrun := accept_cases h
    · have shorter : t.rest.length ≤ rest.length := (Forward.of_ok hrun).rest.length_le
      rw [hrest, List.length_cons]
      exact Nat.lt_succ_of_le shorter
    · exact hq.shorter hrun
  declines {s} hs := by
    have leave : accept kind s = .ok false s := accept_leave (by rw [hs]; rintro _ ⟨⟩)
    rw [bind_ok leave, if_neg Bool.false_ne_true]
    exact hq.declines hs

instance steps_extend (tier : Tier) (operand : Parser Expr) [Forward operand] (left : Expr) :
    Steps (tier.extend operand left) where
  shorter {s t a} h := by
    unfold Tier.extend at h
    obtain ⟨taken, s₁, haccept, hright⟩ := bind_eq_ok h
    rw [acceptIf_run] at haccept
    split at haccept
    · cases haccept
      nomatch hright
    · next token rest hrest =>
      split at haccept
      · cases haccept
        obtain ⟨right, s₂, hoperand, hpure⟩ := bind_eq_ok hright
        cases hpure
        rw [hrest, List.length_cons]
        exact Nat.lt_succ_of_le (Forward.of_ok hoperand).rest.length_le
      · cases haccept
        nomatch hright
  declines {s} hs := by
    unfold Tier.extend
    rw [bind_ok (acceptIf_leave _ (by rw [hs]; rintro _ ⟨⟩))]
    rfl

instance local_numbered (issue : SyntaxIssue) (item : Parser α) [Forward item] [Local item]
    (index : Nat) : Local (numbered issue item index) := by
  unfold numbered
  dsimp only
  infer_instance

instance local_behindItem (issue : SyntaxIssue) (item : Parser α) [Forward item] [Local item] :
    Local (behindItem issue item) := by
  unfold behindItem
  infer_instance

instance local_listed (issue : SyntaxIssue) (item : Parser α) [Forward item] [Local item] :
    Local (listed issue item) := by
  unfold listed
  rw [commaSeparated_eq]
  infer_instance

end Lox.Parser
