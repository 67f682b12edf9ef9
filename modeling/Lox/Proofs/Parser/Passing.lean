import Lox.Proofs.Parser.Depth
import Lox.Proofs.Parser.Program
import Lox.Proofs.Syntax.Lenient

/-!
# Runs over flawed tokens

A parser that notes an error and goes on takes the same tokens as one that finds nothing wrong. `Over` says
what comes of some tokens in front of others: they are taken, these flaws and no others are noted, and what
is given is of a certain kind. Such a run is put together from its steps, each of which is met in the state
that the ones before it leave behind (`ComesTo`).

For the loops there is one lemma each, about parts that stand one behind the other.
-/

namespace Lox.Parser

open Lox.Grammar

variable {α β : Type}

/-! ## Steps -/

/-- The state behind tokens with some flaws. -/
def State.past (s : State) (rest : List Token) (nextId : OccurrenceId) (flaws : List SyntaxError) :
    State :=
  { s with rest := rest, nextId := nextId, errors := s.errors ++ flaws }

theorem State.past_past (s : State) (us rest : List Token) (m n : OccurrenceId)
    (flaws more : List SyntaxError) :
    (s.past us m flaws).past rest n more = s.past rest n (flaws ++ more) := by
  rw [past, past, past, List.append_assoc]

theorem State.past_self {s : State} {rest : List Token} (h : s.rest = [] ++ rest) :
    s.past rest s.nextId [] = s := by
  rw [past, List.append_nil, ← show s.rest = rest from h]

/-- With the tokens `ts` in front of `rest`, the parser takes them, notes the flaws and goes on as one of
the goals. -/
def ComesTo (p : Parser α) (goals : Parser α → Prop) : Reading := fun rest ts flaws =>
  ∀ s : State, s.Ends → s.rest = ts ++ rest → ∃ q n, goals q ∧ p s = q (s.past rest n flaws)

/-- With the tokens `ts` in front of `rest`, the parser takes them, notes the flaws and gives something of
which `P` holds. -/
def Over (p : Parser α) (P : α → Prop) : Reading := ComesTo p fun q => ∃ a, P a ∧ q = pure a

/-- With the tokens `ts` in front of `rest`, the parser takes them, notes the flaws and gives something. -/
abbrev Passes (p : Parser α) : Reading := Over p fun _ => True

variable {p q : Parser α} {goals goals' : Parser α → Prop} {P Q : α → Prop} {k : β → Parser α}
variable {rest ts us : List Token} {flaws more : List SyntaxError} {token : Token} {kind : TokenKind}

theorem Over.run (h : Over p P rest ts flaws) {s : State} (ends : s.Ends) (hs : s.rest = ts ++ rest) :
    ∃ a n, P a ∧ p s = .ok a (s.past rest n flaws) := by
  obtain ⟨_, n, ⟨a, ha, rfl⟩, hrun⟩ := h s ends hs
  exact ⟨a, n, ha, hrun⟩

theorem Over.of_run (h : ∀ s : State, s.Ends → s.rest = ts ++ rest →
    ∃ a n, P a ∧ p s = .ok a (s.past rest n flaws)) : Over p P rest ts flaws := by
  intro s ends hs
  obtain ⟨a, n, ha, hrun⟩ := h s ends hs
  exact ⟨_, n, ⟨a, ha, rfl⟩, hrun⟩

theorem Over.imp (h : Over p P rest ts flaws) (hPQ : ∀ a, P a → Q a) : Over p Q rest ts flaws :=
  .of_run fun _ ends hs =>
    let ⟨a, n, ha, hrun⟩ := h.run ends hs
    ⟨a, n, hPQ a ha, hrun⟩

theorem ComesTo.refl (h : goals p) : ComesTo p goals rest [] [] := by
  intro s _ hs
  exact ⟨p, s.nextId, h, by rw [State.past_self hs]⟩

theorem Over.pure {a : α} (h : P a) : Over (pure a) P rest [] [] := ComesTo.refl ⟨a, h, rfl⟩

theorem Passes.pure (a : α) : Passes (pure a) rest [] [] := Over.pure trivial

/-- One parser goes on where another one comes to it. -/
theorem ComesTo.trans (h : ComesTo p goals (us ++ rest) ts flaws)
    (h' : ∀ q, goals q → ComesTo q goals' rest us more) :
    ComesTo p goals' rest (ts ++ us) (flaws ++ more) := by
  intro s ends hs
  obtain ⟨q, n, hq, hrun⟩ := h s ends (hs.trans (List.append_assoc ..))
  obtain ⟨q', n', hq', hrun'⟩ := h' q hq (s.past (us ++ rest) n flaws) ends rfl
  exact ⟨q', n', hq', hrun.trans (hrun'.trans (by rw [State.past_past]))⟩

theorem Over.bind {p : Parser β} {P : β → Prop} (h : Over p P (us ++ rest) ts flaws)
    (h' : ∀ b, P b → ComesTo (k b) goals rest us more) :
    ComesTo (p >>= k) goals rest (ts ++ us) (flaws ++ more) := by
  intro s ends hs
  obtain ⟨b, n, hb, hrun⟩ := h.run ends (hs.trans (List.append_assoc ..))
  obtain ⟨q, n', hq, hrun'⟩ := h' b hb (s.past (us ++ rest) n flaws) ends rfl
  exact ⟨q, n', hq, (bind_ok hrun).trans (hrun'.trans (by rw [State.past_past]))⟩

/-- What is left to do behind the tokens takes none. -/
theorem Over.last {p : Parser β} {P : β → Prop} (h : Over p P rest ts flaws)
    (h' : ∀ b, P b → ComesTo (k b) goals rest [] []) : ComesTo (p >>= k) goals rest ts flaws := by
  have run : ComesTo (p >>= k) goals rest (ts ++ []) (flaws ++ []) := Over.bind h h'
  rwa [List.append_nil, List.append_nil] at run

theorem Over.map {p : Parser β} {P : β → Prop} (h : Over p P rest ts flaws) {f : β → α}
    (h' : ∀ b, P b → Q (f b)) : Over (f <$> p) Q rest ts flaws :=
  .of_run fun _ ends hs =>
    let ⟨b, n, hb, hrun⟩ := h.run ends hs
    ⟨f b, n, h' b hb, map_ok hrun⟩

/-- A step that a run is the same with, whatever is the next free identity. -/
theorem ComesTo.of_eq {m : State → OccurrenceId} (h : ComesTo q goals rest ts flaws)
    (heq : ∀ {s : State}, s.Ends → s.rest = ts ++ rest → p s = q { s with nextId := m s }) :
    ComesTo p goals rest ts flaws := by
  intro s ends hs
  obtain ⟨q', n, hq', hrun⟩ := h { s with nextId := m s } ends hs
  exact ⟨q', n, hq', (heq ends hs).trans hrun⟩

theorem ComesTo.of_unfold (h : ComesTo q goals rest ts flaws)
    (heq : ∀ {s : State}, s.Ends → s.rest = ts ++ rest → p s = q s) : ComesTo p goals rest ts flaws :=
  h.of_eq (m := State.nextId) heq

theorem ComesTo.get {k : State → Parser α}
    (h : ∀ s : State, s.rest = ts ++ rest → ComesTo (k s) goals rest ts flaws) :
    ComesTo (get >>= k) goals rest ts flaws :=
  fun s ends hs => h s hs s ends hs

/-- A token in front that is taken first. -/
theorem ComesTo.of_cons (h : ComesTo q goals rest us flaws)
    (heq : ∀ {s : State}, s.rest = token :: (us ++ rest) → p s = q { s with rest := us ++ rest }) :
    ComesTo p goals rest (token :: us) flaws := by
  intro s ends hs
  obtain ⟨q', n, hq', hrun⟩ := h { s with rest := us ++ rest } ends rfl
  exact ⟨q', n, hq', (heq hs).trans hrun⟩

theorem ComesTo.expect {k : Token → Parser α} {what : Expectation} (hkind : token.kind = kind)
    (h : ComesTo (k token) goals rest us flaws) :
    ComesTo (Parser.expect kind what >>= k) goals rest (token :: us) flaws :=
  h.of_cons fun hs => bind_ok (expect_take what hs hkind)

theorem ComesTo.taken {x y : Parser α} (hkind : token.kind = kind) (h : ComesTo x goals rest us flaws) :
    ComesTo (accept kind >>= fun taken => if taken then x else y) goals rest (token :: us) flaws :=
  h.of_cons fun hs => by rw [bind_ok (accept_take hs hkind), if_pos rfl]

theorem ComesTo.left {x y : Parser α} (hnext : NotNext kind (ts ++ rest))
    (h : ComesTo y goals rest ts flaws) :
    ComesTo (accept kind >>= fun taken => if taken then x else y) goals rest ts flaws :=
  h.of_eq (m := State.nextId) fun _ hs => by
    rw [bind_ok (accept_leave (hs ▸ hnext)), if_neg Bool.false_ne_true]

theorem ComesTo.seen {x y : Parser α} (hnext : Next kind (ts ++ rest))
    (h : ComesTo x goals rest ts flaws) :
    ComesTo (sees kind >>= fun seen => if seen then x else y) goals rest ts flaws :=
  h.of_eq (m := State.nextId) fun {s} _ hs => by
    obtain ⟨token, more, htokens, hkind⟩ := hnext
    rw [bind_ok (sees_run kind s), sees_cons (hs.trans htokens), hkind, beq_self_eq_true, if_pos rfl]

theorem ComesTo.unseen {x y : Parser α} (hnext : NotNext kind (ts ++ rest))
    (h : ComesTo y goals rest ts flaws) :
    ComesTo (sees kind >>= fun seen => if seen then x else y) goals rest ts flaws :=
  h.of_eq (m := State.nextId) fun {s} _ hs => by
    rw [bind_ok (sees_run kind s), sees_eq_false (hs ▸ hnext), if_neg Bool.false_ne_true]

theorem ComesTo.freshId {k : OccurrenceId → Parser α} (h : ∀ id, ComesTo (k id) goals rest ts flaws) :
    ComesTo (Parser.freshId >>= k) goals rest ts flaws := by
  intro s ends hs
  obtain ⟨q, n, hq, hrun⟩ := h s.nextId { s with nextId := s.nextId + 1 } ends hs
  exact ⟨q, n, hq, (bind_ok (freshId_run s)).trans hrun⟩

theorem ComesTo.note {k : Unit → Parser α} {error : SyntaxError} (h : ComesTo (k ()) goals rest ts flaws) :
    ComesTo (Parser.note error >>= k) goals rest ts (error :: flaws) := by
  intro s ends hs
  obtain ⟨q, n, hq, hrun⟩ := h { s with errors := s.errors ++ [error] } ends hs
  refine ⟨q, n, hq, (bind_ok (note_run error s)).trans (hrun.trans ?_)⟩
  rw [State.past, State.past, List.append_cons s.errors error flaws]

theorem over_expect (what : Expectation) (hkind : token.kind = kind) :
    Over (expect kind what) (· = token) rest [token] [] :=
  ComesTo.of_cons (Over.pure rfl) fun hs => expect_take what hs hkind

/-! ## Loops -/

theorem lt_of_taken {s : State} (nonempty : ts ≠ []) (hs : s.rest = ts ++ rest) :
    rest.length < s.rest.length := by
  have taken := List.length_pos_iff.mpr nonempty
  rw [hs, List.length_append]
  omega

section

variable {R : Reading} {step : α → Parser (Option α)}

/-- A loop that goes on from part to part. What holds of the tokens behind which a round begins and of what
has been read up to there is kept by each round. -/
theorem over_iterate (stops : List Token → Prop) (P : List Token → α → Prop) (before : List Token)
    (round : ∀ {rest ts flaws}, R rest ts flaws → stops rest → ts ≠ [] ∧ ∀ {us a}, P us a →
      Over (step a) (fun o => ∃ b, o = some b ∧ P (us ++ ts) b) rest ts flaws)
    (next : ∀ {rest ts flaws}, R rest ts flaws → stops (ts ++ rest)) (hrest : stops rest)
    (stop : ∀ {a} {s : State}, s.rest = rest → step a s = .ok none s)
    (h : Repeated R rest ts flaws) {a : α} (ha : P before a) :
    Over (iterate step a) (P (before ++ ts)) rest ts flaws := by
  -- each part is a round, which the next one goes on from with more tokens behind it
  have rounds : ∀ {us a} {s : State}, P us a → s.Ends → s.rest = ts ++ rest → ∃ b n, P (us ++ ts) b ∧
      Relation.ReflTransGen (Round step) (a, s) (b, s.past rest n flaws) := by
    clear ha
    induction h with
    | nil =>
      intro us a s ha _ hs
      refine ⟨a, s.nextId, by rwa [List.append_nil], ?_⟩
      rw [State.past_self hs]
    | @cons rest ts vs flaws more hpart hparts ih =>
      intro us a s ha ends hs
      obtain ⟨nonempty, hround⟩ := round hpart (hparts.follow next hrest)
      have hs := hs.trans (List.append_assoc ..)
      obtain ⟨_, n, ⟨b, rfl, hb⟩, hrun⟩ := (hround ha).run ends hs
      obtain ⟨c, n', hc, hrounds⟩ := ih hrest stop hb (s := s.past (vs ++ rest) n flaws) ends rfl
      rw [State.past_past] at hrounds
      exact ⟨c, n', List.append_assoc us ts vs ▸ hc, .head ⟨hrun, lt_of_taken nonempty hs⟩ hrounds⟩
  refine .of_run fun _ ends hs => ?_
  obtain ⟨b, n, hb, hrounds⟩ := rounds ha ends hs
  exact ⟨b, n, hb, iterate_of_rounds hrounds (stop rfl)⟩

/-- A loop that collects an item from each part. -/
theorem over_collect {step : Nat → Parser (Option α)} (stops : List Token → Prop)
    (round : ∀ {rest ts flaws}, R rest ts flaws → stops rest → ts ≠ [] ∧
      ∀ i, Over (step i) (fun o => ∃ a, o = some a) rest ts flaws)
    (next : ∀ {rest ts flaws}, R rest ts flaws → stops (ts ++ rest)) (hrest : stops rest)
    (stop : ∀ {i} {s : State}, s.rest = rest → step i s = .ok none s)
    (h : Repeated R rest ts flaws) : Passes (collect step) rest ts flaws := by
  have rounds : ∀ {i} {s : State}, s.Ends → s.rest = ts ++ rest →
      ∃ as n, Collects step i s as (s.past rest n flaws) := by
    induction h with
    | nil =>
      intro i s _ hs
      refine ⟨[], s.nextId, ?_⟩
      rw [State.past_self hs]
      exact .stop (stop hs)
    | @cons rest ts vs flaws more hpart hparts ih =>
      intro i s ends hs
      obtain ⟨nonempty, hround⟩ := round hpart (hparts.follow next hrest)
      have hs := hs.trans (List.append_assoc ..)
      obtain ⟨_, n, ⟨a, rfl⟩, hrun⟩ := (hround i).run ends hs
      obtain ⟨as, n', hcollects⟩ :=
        ih hrest stop (i := i + 1) (s := s.past (vs ++ rest) n flaws) ends rfl
      rw [State.past_past] at hcollects
      exact ⟨a :: as, n', .item hrun (lt_of_taken nonempty hs) hcollects⟩
  refine .of_run fun _ ends hs => ?_
  obtain ⟨as, n, hcollects⟩ := rounds ends hs
  exact ⟨as, n, trivial, collect_of_collects hcollects⟩

end

/-! ## Lists with commas -/

section

variable {item : Parser α} {issue : SyntaxIssue} {index : Nat}

/-- An item with too many in front of it is an error, and is read all the same. -/
theorem over_numbered (nonempty : ts ≠ []) (h : Over item P rest ts flaws) :
    Over (numbered issue item index) P rest ts (beyond issue index (ts ++ rest) ++ flaws) := by
  obtain ⟨token, us, rfl⟩ := List.exists_cons_of_ne_nil nonempty
  unfold numbered
  dsimp only
  rw [List.cons_append, beyond]
  split
  · intro s ends hs
    have error : s.error issue = ⟨(us ++ rest).length + 1, token, issue⟩ := by
      rw [State.error, here_cons hs, hs]
      rfl
    rw [← error]
    exact ComesTo.note (k := fun _ => item) h s ends hs
  · exact h

variable {R : Reading} (stops : List Token → Prop)
  (hcomma : ∀ {comma : Token} {rest}, comma.kind = .symbol .comma → stops (comma :: rest))
  (hitem : ∀ {rest ts flaws}, R rest ts flaws → stops rest → ts ≠ [] ∧ Passes item rest ts flaws)
  (hrest : stops rest) (hnext : NotNext (.symbol .comma) rest)

include hcomma hitem hrest hnext

/-- The first item of a list, and the loop over the others. -/
private theorem items_collects (h : Items issue R index rest ts flaws) :
    ∃ us vs f g, ts = us ++ vs ∧ flaws = f ++ g ∧
      Passes (numbered issue item index) (vs ++ rest) us f ∧
      ∀ {s : State}, s.Ends → s.rest = vs ++ rest → ∃ as n,
        Collects (commaStep issue item) index s as (s.past rest n g) := by
  induction h with
  | last hR =>
    obtain ⟨nonempty, reads⟩ := hitem hR hrest
    refine ⟨_, [], _, [], (List.append_nil _).symm, (List.append_nil _).symm,
      over_numbered nonempty reads, fun {s} _ hs => ⟨[], s.nextId, ?_⟩⟩
    rw [State.past_self hs]
    exact .stop (commaStep_leave issue item _ (show NotNext _ s.rest from hs ▸ hnext))
  | @more index rest ts comma us flaws more hR hkind _ ih =>
    obtain ⟨nonempty, reads⟩ := hitem hR (hcomma hkind)
    -- what is the first item of the rest is the next round of the loop here
    obtain ⟨vs, ws, f, g, rfl, rfl, second, others⟩ := ih hrest hnext
    refine ⟨ts, comma :: (vs ++ ws), _, f ++ g, rfl, rfl, ?_, fun {s} ends hs => ?_⟩
    · have first : Over (numbered issue item index) _ _ _ _ := over_numbered nonempty reads
      rw [List.cons_append] at first
      rw [List.append_assoc]
      exact first
    · have hs : s.rest = comma :: (vs ++ (ws ++ rest)) := by rw [hs]; simp
      obtain ⟨a, n, -, hrun⟩ :=
        second.run (s := { s with rest := vs ++ (ws ++ rest) }) ends rfl
      obtain ⟨as, n', hcollects⟩ := others (s := s.past (ws ++ rest) n f) ends rfl
      rw [State.past_past] at hcollects
      refine ⟨a :: as, n', .item ?_ ?_ hcollects⟩
      · rw [commaStep_take issue item index hs hkind, bind_ok hrun]
        rfl
      · exact lt_of_taken (List.cons_ne_nil comma vs) hs

/-- A list with all its items, the ones beyond the limit among them. -/
theorem over_listed (nonempty : NotNext (.symbol .rightParen) (ts ++ rest))
    (h : Items issue R 0 rest ts flaws) : Passes (listed issue item) rest ts flaws := by
  unfold listed
  refine ComesTo.unseen nonempty ?_
  rw [commaSeparated_eq]
  obtain ⟨us, vs, f, g, rfl, rfl, first, others⟩ := items_collects stops hcomma hitem hrest hnext h
  refine first.bind fun _ _ => ?_
  have behind : Passes (behindItem issue item) rest vs g := .of_run fun s ends hs => by
    obtain ⟨as, n, hcollects⟩ := others ends hs
    exact ⟨as, n, trivial, behindItem_of_collects hcollects⟩
  exact behind.map fun _ _ => trivial

end

end Lox.Parser
