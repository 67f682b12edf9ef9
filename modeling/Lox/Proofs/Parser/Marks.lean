import Lox.Proofs.Parser.Loop

/-!
# Single tokens and lists with commas

What the parsers of single tokens take, as equations on states in which the next token is known and,
the other way round, as what a run without errors says of the next token. Then the same for lists in
which commas stand between the items.
-/

namespace Lox.Parser

variable {α : Type}

/-! ## The next token -/

theorem sees_cons {s : State} {token : Token} {rest : List Token} (h : s.rest = token :: rest)
    (kind : TokenKind) : s.sees kind = (token.kind == kind) := by
  rw [State.sees, h]

theorem sees_nil {s : State} (h : s.rest = []) (kind : TokenKind) : s.sees kind = false := by
  rw [State.sees, h]

theorem here_cons {s : State} {token : Token} {rest : List Token} (h : s.rest = token :: rest) :
    s.here = token := by
  rw [State.here, h]
  rfl

/-- A token of this kind is there if it is seen. -/
theorem exists_of_sees {s : State} {kind : TokenKind} (h : s.sees kind = true) :
    ∃ token rest, s.rest = token :: rest ∧ token.kind = kind := by
  cases hs : s.rest with
  | nil => rw [sees_nil hs] at h; cases h
  | cons token rest =>
    rw [sees_cons hs] at h
    exact ⟨token, rest, rfl, eq_of_beq h⟩

/-- The next token is not of this kind. -/
def NotNext (kind : TokenKind) (rest : List Token) : Prop :=
  ∀ token ∈ rest.head?, token.kind ≠ kind

theorem notNext_cons {kind : TokenKind} {token : Token} {rest : List Token}
    (h : token.kind ≠ kind) : NotNext kind (token :: rest) := by
  rintro _ ⟨⟩
  exact h

theorem sees_eq_false {s : State} {kind : TokenKind} (h : NotNext kind s.rest) :
    s.sees kind = false := by
  cases hs : s.rest with
  | nil => exact sees_nil hs kind
  | cons token rest =>
    rw [sees_cons hs, beq_eq_false_iff_ne]
    exact h token (by rw [hs]; rfl)

theorem notNext_of_sees {s : State} {kind : TokenKind} (h : s.sees kind = false) :
    NotNext kind s.rest := by
  intro token htoken
  cases hs : s.rest with
  | nil => rw [hs] at htoken; cases htoken
  | cons first rest =>
    rw [hs] at htoken
    cases htoken
    rw [sees_cons hs] at h
    exact beq_eq_false_iff_ne.mp h

/-! ## Taking it -/

theorem expect_take {s : State} {token : Token} {rest : List Token} {kind : TokenKind}
    (what : Expectation) (h : s.rest = token :: rest) (hkind : token.kind = kind) :
    expect kind what s = .ok token { s with rest := rest } := by
  rw [expect_run, sees_cons h, hkind, beq_self_eq_true, if_pos rfl, here_cons h, h]
  rfl

theorem expectMark_take {s : State} {token : Token} {rest : List Token} {mark : Symbol}
    (place : MarkPlace) (h : s.rest = token :: rest) (hkind : token.kind = .symbol mark) :
    expectMark mark place s = .ok token { s with rest := rest } :=
  expect_take _ h hkind

theorem accept_take {s : State} {token : Token} {rest : List Token} {kind : TokenKind}
    (h : s.rest = token :: rest) (hkind : token.kind = kind) :
    accept kind s = .ok true { s with rest := rest } := by
  rw [accept_run, sees_cons h, hkind, beq_self_eq_true, if_pos rfl, h]
  rfl

theorem accept_leave {s : State} {kind : TokenKind} (h : NotNext kind s.rest) :
    accept kind s = .ok false s := by
  rw [accept_run, sees_eq_false h]
  rfl

theorem acceptIf_take {s : State} {token : Token} {rest : List Token} (test : Token → Bool)
    (h : s.rest = token :: rest) (htest : test token = true) :
    acceptIf test s = .ok (some token) { s with rest := rest } := by
  rw [acceptIf_run, h]
  exact if_pos htest

theorem acceptIf_leave {s : State} (test : Token → Bool)
    (h : ∀ token ∈ s.rest.head?, test token = false) : acceptIf test s = .ok none s := by
  rw [acceptIf_run]
  split
  · rfl
  · next token rest hs =>
    rw [h token (by rw [hs]; rfl), if_neg Bool.false_ne_true]

theorem expect_gives {s s' : State} {token : Token} {kind : TokenKind} {what : Expectation}
    (h : Gives (expect kind what) s token s') :
    s.rest = token :: s'.rest ∧ token.kind = kind ∧ s' = { s with rest := s'.rest } := by
  have run := h.run
  rw [expect_run] at run
  split at run
  · next hsees =>
    obtain ⟨first, rest, hs, hkind⟩ := exists_of_sees hsees
    rw [here_cons hs, hs] at run
    cases run
    exact ⟨hs, hkind, rfl⟩
  · cases run

theorem expectMark_gives {s s' : State} {token : Token} {mark : Symbol} {place : MarkPlace}
    (h : Gives (expectMark mark place) s token s') :
    s.rest = token :: s'.rest ∧ token.kind = .symbol mark ∧ s' = { s with rest := s'.rest } :=
  expect_gives h

theorem accept_gives {s s' : State} {taken : Bool} {kind : TokenKind}
    (h : Gives (accept kind) s taken s') :
    (taken = true ∧ ∃ token, s.rest = token :: s'.rest ∧ token.kind = kind ∧
      s' = { s with rest := s'.rest }) ∨
    (taken = false ∧ NotNext kind s.rest ∧ s' = s) := by
  have run := h.run
  rw [accept_run] at run
  split at run
  · next hsees =>
    obtain ⟨token, rest, hs, hkind⟩ := exists_of_sees hsees
    rw [hs] at run
    cases run
    exact .inl ⟨rfl, token, hs, hkind, rfl⟩
  · next hsees =>
    cases run
    exact .inr ⟨rfl, notNext_of_sees (Bool.eq_false_iff.mpr hsees), rfl⟩

theorem sees_gives {s s' : State} {seen : Bool} {kind : TokenKind}
    (h : Gives (sees kind) s seen s') : seen = s.sees kind ∧ s' = s := by
  cases h.run
  exact ⟨rfl, rfl⟩

theorem atEnd_gives {s s' : State} {ended : Bool} (h : Gives atEnd s ended s') :
    ended = s.rest.isEmpty ∧ s' = s := by
  cases h.run
  exact ⟨rfl, rfl⟩

theorem fail_gives {s s' : State} {a : α} {issue : SyntaxIssue}
    (h : Gives (fail issue) s a s') : False := by
  cases h.run

theorem note_gives {s s' : State} {error : SyntaxError} (h : Gives (note error) s () s') :
    False := by
  have quiet := h.quiet
  cases h.run
  exact absurd (congrArg List.length quiet) (by simp)

theorem report_gives {s s' : State} {issue : SyntaxIssue} (h : Gives (report issue) s () s') :
    False :=
  note_gives (get_gives h)

theorem acceptIf_gives {s s' : State} {test : Token → Bool} {taken : Option Token}
    (h : Gives (acceptIf test) s taken s') :
    (∃ token, taken = some token ∧ s.rest = token :: s'.rest ∧ test token = true ∧
      s' = { s with rest := s'.rest }) ∨
    (taken = none ∧ s' = s) := by
  have run := h.run
  rw [acceptIf_run] at run
  split at run
  · cases run
    exact .inr ⟨rfl, rfl⟩
  · next token rest hs =>
    split at run
    · next htest =>
      cases run
      exact .inl ⟨token, rfl, hs, htest, rfl⟩
    · cases run
      exact .inr ⟨rfl, rfl⟩

/-! ## Lists with commas -/

/-- The tokens spell items with commas between them, one at least. -/
inductive Separated (R : Nat → List Token → α → Nat → Prop) :
    Nat → List Token → List α → Nat → Prop
  | last {n ts a n'} : R n ts a n' → Separated R n ts [a] n'
  | more {n ts a n₁ comma us as n₂} : R n ts a n₁ → comma.kind = .symbol .comma →
      Separated R n₁ us as n₂ → Separated R n (ts ++ comma :: us) (a :: as) n₂

/-- What the parser gives is spelled by the tokens that it takes. -/
def ReadBy (R : Nat → List Token → α → Nat → Prop) (p : Parser α) : Prop :=
  ∀ {s : State} {a s'}, s.Ends → Gives p s a s' → ∃ ts, s.rest = ts ++ s'.rest ∧ R s.nextId ts a s'.nextId

/-- An item with its number in the list, which may be too large. -/
def numbered (issue : SyntaxIssue) (item : Parser α) (index : Nat) : Parser α := do
  if maxArguments ≤ index then report issue
  item

/-- The items behind the first one, with the commas before them. -/
def behindItem (issue : SyntaxIssue) (item : Parser α) : Parser (List α) :=
  collect fun index => do
    if ← accept (.symbol .comma) then return some (← numbered issue item (index + 1))
    else return none

/-- A round of the loop over the items behind the first one. -/
def commaStep (issue : SyntaxIssue) (item : Parser α) (index : Nat) : Parser (Option α) := do
  if ← accept (.symbol .comma) then return some (← numbered issue item (index + 1))
  else return none

theorem commaStep_leave (issue : SyntaxIssue) (item : Parser α) (index : Nat) {s : State}
    (h : NotNext (.symbol .comma) s.rest) : commaStep issue item index s = .ok none s := by
  unfold commaStep
  rw [bind_ok (accept_leave h)]
  rfl

theorem commaStep_take (issue : SyntaxIssue) (item : Parser α) (index : Nat) {s : State} {comma : Token}
    {rest : List Token} (hs : s.rest = comma :: rest) (hkind : comma.kind = .symbol .comma) :
    commaStep issue item index s =
      (numbered issue item (index + 1) >>= fun a => pure (some a)) { s with rest := rest } := by
  unfold commaStep
  rw [bind_ok (accept_take hs hkind), if_pos rfl]

theorem behindItem_of_collects {issue : SyntaxIssue} {item : Parser α} {s s' : State} {as : List α}
    (h : Collects (commaStep issue item) 0 s as s') : behindItem issue item s = .ok as s' :=
  collect_of_collects h

theorem commaSeparated_eq (issue : SyntaxIssue) (item : Parser α) :
    commaSeparated issue item = (do
      let first ← numbered issue item 0
      let more ← behindItem issue item
      return first :: more) :=
  rfl

instance forward_numbered (issue : SyntaxIssue) (item : Parser α) [Forward item] (index : Nat) :
    Forward (numbered issue item index) := by
  unfold numbered
  dsimp only
  infer_instance

instance forward_commaStep (issue : SyntaxIssue) (item : Parser α) [Forward item] (index : Nat) :
    Forward (commaStep issue item index) := by
  unfold commaStep
  infer_instance

instance forward_behindItem (issue : SyntaxIssue) (item : Parser α) [Forward item] :
    Forward (behindItem issue item) := by
  unfold behindItem
  infer_instance

private theorem numbered_gives {issue : SyntaxIssue} {item : Parser α} [Forward item]
    {index : Nat} {s s' : State} {a : α} (h : Gives (numbered issue item index) s a s') :
    index < maxArguments ∧ Gives item s a s' := by
  unfold numbered at h
  dsimp only at h
  split at h
  · obtain ⟨_, _, hreport, _⟩ := bind_gives h
    exact (report_gives hreport).elim
  · next hindex => exact ⟨Nat.lt_of_not_le hindex, h⟩

/-- Behind an item stand commas with further items, fewer than the limit in all. -/
private theorem behindItem_gives {R : Nat → List Token → α → Nat → Prop} {issue : SyntaxIssue}
    {item : Parser α} [Forward item] (hitem : ReadBy R item) {s s' : State} {as : List α}
    (ends : s.Ends) (h : Gives (behindItem issue item) s as s')
    {n : Nat} {ts : List Token} {a : α} (hR : R n ts a s.nextId) :
    ∃ us, s.rest = us ++ s'.rest ∧ Separated R n (ts ++ us) (a :: as) s'.nextId ∧
      (a :: as).length ≤ maxArguments := by
  refine (collect_gives
    (fun i s as s' => s.Ends → i < maxArguments → ∀ {n ts a}, R n ts a s.nextId →
      ∃ us, s.rest = us ++ s'.rest ∧ Separated R n (ts ++ us) (a :: as) s'.nextId ∧
        i + (a :: as).length ≤ maxArguments) ?_ ?_ ?_ h).1 ends (by decide) hR |>.imp ?_
  · intro i s s' hstep _ hi n ts a hR
    obtain ⟨taken, s₁, haccept, hrest⟩ := bind_gives hstep
    obtain ⟨rfl, -⟩ | ⟨rfl, -, rfl⟩ := accept_gives haccept
    · obtain ⟨_, _, _, hpure⟩ := bind_gives hrest
      cases (pure_gives hpure).1
    · obtain ⟨-, rfl⟩ := pure_gives hrest
      exact ⟨[], rfl, by simpa using .last hR, hi⟩
  · intro i s _ hi n ts a hR
    exact ⟨[], rfl, by simpa using .last hR, hi⟩
  · intro i s b s₂ bs s' hstep ih ends hi n ts a hR
    obtain ⟨taken, s₁, haccept, hrest⟩ := bind_gives hstep
    obtain ⟨rfl, comma, hcomma, hkind, hs₁⟩ | ⟨rfl, -⟩ := accept_gives haccept
    · obtain ⟨c, s₃, hnumbered, hpure⟩ := bind_gives hrest
      obtain ⟨hc, rfl⟩ := pure_gives hpure
      cases hc
      obtain ⟨hindex, hgives⟩ := numbered_gives hnumbered
      obtain ⟨us, hus, hb⟩ := hitem (haccept.ends ends) hgives
      obtain ⟨vs, hvs, hmore, hlength⟩ := ih (hstep.ends ends) hindex hb
      refine ⟨comma :: us ++ vs, ?_, ?_, ?_⟩
      · rw [hcomma, hus, hvs, List.cons_append, List.cons_append, List.append_assoc]
      · have hid : s₁.nextId = s.nextId := by rw [hs₁]
        rw [List.cons_append]
        exact .more (hid ▸ hR) hkind hmore
      · simp only [List.length_cons] at hlength ⊢
        omega
    · cases (pure_gives hrest).1
  · rintro us ⟨hus, hsep, hlength⟩
    exact ⟨hus, hsep, by omega⟩

theorem commaSeparated_gives {R : Nat → List Token → α → Nat → Prop} {issue : SyntaxIssue}
    {item : Parser α} [Forward item] (hitem : ReadBy R item) {s s' : State} {as : List α}
    (ends : s.Ends) (h : Gives (commaSeparated issue item) s as s') :
    ∃ ts, s.rest = ts ++ s'.rest ∧ Separated R s.nextId ts as s'.nextId ∧
      as.length ≤ maxArguments := by
  rw [commaSeparated_eq] at h
  obtain ⟨first, s₁, hfirst, hrest⟩ := bind_gives h
  obtain ⟨more, s₂, hmore, hpure⟩ := bind_gives hrest
  obtain ⟨rfl, rfl⟩ := pure_gives hpure
  obtain ⟨ts, hts, hR⟩ := hitem ends (numbered_gives hfirst).2
  obtain ⟨us, hus, hsep, hlength⟩ := behindItem_gives hitem (hfirst.ends ends) hmore hR
  exact ⟨ts ++ us, by rw [hts, hus, List.append_assoc], hsep, hlength⟩

theorem listed_gives {R : Nat → List Token → α → Nat → Prop} {issue : SyntaxIssue}
    {item : Parser α} [Forward item] (hitem : ReadBy R item) {s s' : State} {as : List α}
    (ends : s.Ends) (h : Gives (listed issue item) s as s') :
    (as = [] ∧ s' = s) ∨
    ∃ ts, s.rest = ts ++ s'.rest ∧ Separated R s.nextId ts as s'.nextId ∧
      as.length ≤ maxArguments := by
  unfold listed at h
  obtain ⟨seen, s₁, hsees, hlist⟩ := bind_gives h
  obtain ⟨-, rfl⟩ := sees_gives hsees
  split at hlist
  · exact .inl (pure_gives hlist)
  · exact .inr (commaSeparated_gives hitem ends hlist)

/-- The parser takes tokens that spell something, whenever `stops` holds of what follows them. -/
def Takes (p : Parser α) (stops : List Token → Prop) (n : Nat) (ts : List Token) (a : α)
    (n' : Nat) : Prop :=
  ∀ {rest : List Token}, stops rest → ∀ {s : State}, s.rest = ts ++ rest → s.nextId = n →
    p s = .ok a { s with rest := rest, nextId := n' }

private theorem numbered_run {issue : SyntaxIssue} {item : Parser α} {index : Nat}
    (h : index < maxArguments) (s : State) : numbered issue item index s = item s := by
  unfold numbered
  dsimp only
  rw [if_neg (Nat.not_le.mpr h)]

section
variable {R : Nat → List Token → α → Nat → Prop} (issue : SyntaxIssue) {item : Parser α}
  (stops : List Token → Prop) (bound : Nat)
  (hcomma : ∀ {comma : Token} {rest}, comma.kind = .symbol .comma → stops (comma :: rest))
  (hitem : ∀ {n ts a n'}, R n ts a n' → ts.length ≤ bound → Takes item stops n ts a n')

include hcomma hitem

/-- The first item of a list, and the loop over the others. -/
private theorem separated_takes {n n' : Nat} {ts : List Token} {as : List α}
    (h : Separated R n ts as n') (hts : ts.length ≤ bound) :
    ∃ a more ts₀ n₁ us, as = a :: more ∧ ts = ts₀ ++ us ∧ R n ts₀ a n₁ ∧
      ∀ {rest}, stops rest → NotNext (.symbol .comma) rest → stops (us ++ rest) ∧
        ∀ {i : Nat} {s : State}, i + as.length ≤ maxArguments → s.rest = us ++ rest →
          s.nextId = n₁ →
          Collects (commaStep issue item) i s more { s with rest := rest, nextId := n' } := by
  induction h with
  | last hR =>
    refine ⟨_, [], _, _, [], rfl, (List.append_nil _).symm, hR, fun hrest hnext => ⟨hrest, ?_⟩⟩
    rintro i s - hs rfl
    rw [List.nil_append] at hs
    subst hs
    exact .stop (commaStep_leave issue item i hnext)
  | @more n ts b n₁ comma us bs n₂ hR hkind _ ih =>
    have hlength : us.length ≤ bound := by
      rw [List.length_append, List.length_cons] at hts
      omega
    obtain ⟨a, more, ts₀, n₃, vs, rfl, rfl, ha, hmore⟩ := ih hlength
    refine ⟨b, a :: more, _, _, comma :: (ts₀ ++ vs), rfl, rfl, hR, fun hrest hnext => ?_⟩
    obtain ⟨hvs, hcollects⟩ := hmore hrest hnext
    refine ⟨hcomma hkind, fun {i s} hi hs hn => ?_⟩
    rw [List.cons_append, List.append_assoc] at hs
    have hfirst := hitem ha (by rw [List.length_append] at hlength; omega) hvs
      (s := { s with rest := ts₀ ++ (vs ++ _) }) rfl hn
    simp only [List.length_cons] at hi
    have hindex : i + 1 < maxArguments := by omega
    refine .item ?_ ?_ (hcollects (s := { s with rest := vs ++ _, nextId := n₃ })
      (by simp only [List.length_cons]; omega) rfl rfl)
    · rw [commaStep_take issue item i hs hkind, bind_ok ((numbered_run hindex _).trans hfirst)]
      rfl
    · rw [hs]
      simp only [List.length_cons, List.length_append]
      omega

theorem commaSeparated_takes {n n' : Nat} {ts : List Token} {as : List α}
    (h : Separated R n ts as n') (hts : ts.length ≤ bound) (has : as.length ≤ maxArguments) :
    Takes (commaSeparated issue item) (fun rest => stops rest ∧ NotNext (.symbol .comma) rest)
      n ts as n' := by
  rintro rest ⟨hrest, hnext⟩ s hs hn
  obtain ⟨a, more, ts₀, n₁, us, rfl, rfl, ha, hmore⟩ :=
    separated_takes issue stops bound hcomma hitem h hts
  obtain ⟨hus, hcollects⟩ := hmore hrest hnext
  have hfirst := hitem ha (by rw [List.length_append] at hts; omega) hus
    (hs.trans (List.append_assoc ..)) hn
  rw [commaSeparated_eq, bind_ok ((numbered_run (by decide) s).trans hfirst),
    bind_ok (behindItem_of_collects (hcollects (by omega) rfl rfl))]
  rfl

end

end Lox.Parser
