import Lox.Proofs.Syntax.Grammar
import Lox.Syntax.Parser.Basic

/-!
# A lenient grammar

The parser reads on where a list is too long or where a value is assigned to what cannot be assigned to.
What it reads is described by a grammar with fewer demands: any number of parameters and arguments, and
any operand in front of an equals sign (`Rule.lenient`). A derivation in that grammar has flaws, which are
the places where it does not keep to the documented one (`Flawed`).

Reasoning about derivations goes through two principles. `shows_of_flawed` is the induction over derivations
with their flaws. `exists_shows` is for what a derivation has some flaws or other of.
-/

namespace Lox.Grammar

open Phrase

/-! ## Derivations -/

/-- Items with commas between them, one at least. -/
def Phrase.separated (item : Phrase) : Phrase := item ++ many (mark .comma ++ item)

/-- The rules with any number of parameters and arguments, and with any operand as what is assigned to. -/
def Rule.lenient : Rule → Phrase
  | .parameters => separated ident
  | .arguments => separated (rule .expression)
  | .assignment => rule .logicOr ++ mark .equal ++ rule .assignment ||| rule .logicOr
  | name => name.phrase

/-- The tokens derive a phrase by the lenient rules, in which no repetition is bounded. -/
inductive DerivesLeniently : Phrase → List Token → Prop
  | terminal {t token} : Terminal.Covers t token.kind → DerivesLeniently (.terminal t) [token]
  | rule {name ts} : DerivesLeniently name.lenient ts → DerivesLeniently (.rule name) ts
  | seq {p q ts us} : DerivesLeniently p ts → DerivesLeniently q us →
      DerivesLeniently (p ++ q) (ts ++ us)
  | left {p q ts} : DerivesLeniently p ts → DerivesLeniently (p ||| q) ts
  | right {p q ts} : DerivesLeniently q ts → DerivesLeniently (p ||| q) ts
  | absent {p} : DerivesLeniently (.optional p) []
  | present {p ts} : DerivesLeniently p ts → DerivesLeniently (.optional p) ts
  | noneOf {p} : DerivesLeniently (.many p) []
  | oneOf {p ts us} : DerivesLeniently p ts → DerivesLeniently (.many p) us →
      DerivesLeniently (.many p) (ts ++ us)

theorem spells_of_lenient {p : Phrase} {ts : List Token} (h : DerivesLeniently p ts) :
    p.Spells (fun name => DerivesLeniently (.rule name)) ts := by
  induction h with
  | terminal h => exact ⟨_, rfl, h⟩
  | rule h => exact .rule h
  | seq _ _ ih ih' => exact ⟨_, _, rfl, ih, ih'⟩
  | left _ ih => exact .inl ih
  | right _ ih => exact .inr ih
  | absent => exact .inl rfl
  | present _ ih => exact .inr ih
  | noneOf => exact ⟨[], rfl, List.forall_mem_nil _⟩
  | oneOf _ _ ih ih' =>
    obtain ⟨parts, rfl, hparts⟩ := ih'
    exact ⟨_ :: parts, rfl, List.forall_mem_cons.mpr ⟨ih, hparts⟩⟩

namespace DerivesLeniently

theorem of_rule {name : Rule} {ts : List Token} (h : DerivesLeniently (.rule name) ts) :
    DerivesLeniently name.lenient ts := by
  cases h with
  | rule h => exact h

theorem of_phrase {name : Rule} {ts : List Token} (hname : name.lenient = name.phrase)
    (h : DerivesLeniently name.phrase ts) : DerivesLeniently (.rule name) ts :=
  .rule (hname ▸ h)

theorem many_snoc {p : Phrase} {ts us : List Token} (h : DerivesLeniently (many p) ts)
    (h' : DerivesLeniently p us) : DerivesLeniently (many p) (ts ++ us) := by
  generalize hq : many p = q at h
  induction h with
  | noneOf =>
    cases hq
    simpa using DerivesLeniently.oneOf h' .noneOf
  | oneOf hfirst _ _ ih =>
    cases hq
    rw [List.append_assoc]
    exact .oneOf hfirst (ih rfl)
  | _ => cases hq

/-- A repetition ends with its last part, if there is any. -/
theorem many_last {p : Phrase} {ts : List Token} (h : DerivesLeniently (many p) ts) :
    ts = [] ∨ ∃ us vs, ts = us ++ vs ∧ DerivesLeniently (many p) us ∧ DerivesLeniently p vs := by
  generalize hq : many p = q at h
  induction h with
  | noneOf => exact .inl rfl
  | @oneOf _ ts us hfirst _ _ ih =>
    cases hq
    refine .inr ?_
    obtain rfl | ⟨vs, ws, rfl, hvs, hws⟩ := ih rfl
    · exact ⟨[], ts, List.append_nil ts, .noneOf, hfirst⟩
    · exact ⟨ts ++ vs, ws, (List.append_assoc ..).symm, .oneOf hfirst hvs, hws⟩
  | _ => cases hq

theorem assigned {ts us : List Token} {equal : Token} (htarget : DerivesLeniently (.rule .logicOr) ts)
    (hequal : equal.kind = .symbol .equal) (hvalue : DerivesLeniently (.rule .assignment) us) :
    DerivesLeniently (.rule .assignment) (ts ++ equal :: us) := by
  have whole := DerivesLeniently.seq (.seq htarget (.terminal (t := .mark .equal) hequal)) hvalue
  rw [List.append_assoc] at whole
  exact .rule (.left whole)

/-- What may be repeated may be missing. -/
theorem alone {p q : Phrase} {ts : List Token} (h : DerivesLeniently p ts) :
    DerivesLeniently (p ++ many q) ts :=
  List.append_nil ts ▸ .seq h .noneOf

/-- A call is an operand at every tier. -/
theorem operand_of_call {ts : List Token} (h : DerivesLeniently (.rule .call) ts) :
    DerivesLeniently (.rule .logicOr) ts := by
  have factor : DerivesLeniently (.rule .factor) ts := .rule (.alone (.rule (.right h)))
  have comparison : DerivesLeniently (.rule .comparison) ts := .rule (.alone (.rule (.alone factor)))
  exact .rule (.alone (.rule (.alone (.rule (.alone comparison)))))

/-- A list goes on behind a comma. -/
theorem list_cons {item : Phrase} {ts us : List Token} {comma : Token} (h : DerivesLeniently item ts)
    (hcomma : comma.kind = .symbol .comma) (hmore : DerivesLeniently (separated item) us) :
    DerivesLeniently (separated item) (ts ++ comma :: us) := by
  cases hmore with
  | seq hsecond hothers =>
    exact .seq h (.oneOf (.seq (.terminal (t := .mark .comma) hcomma) hsecond) hothers)

end DerivesLeniently

/-! ## Targets -/

/-- The last token is a name. -/
def EndsInName (ts : List Token) : Prop := ∃ us name, ts = us ++ [name] ∧ name.kind = .identifier

theorem endsInName_snoc {us : List Token} {token : Token} :
    EndsInName (us ++ [token]) ↔ token.kind = .identifier := by
  constructor
  · rintro ⟨vs, name, heq, hname⟩
    obtain ⟨-, heq⟩ := List.append_inj' heq rfl
    rwa [List.singleton_inj.mp heq]
  · exact fun h => ⟨us, token, rfl, h⟩

theorem endsInName_singleton {token : Token} : EndsInName [token] ↔ token.kind = .identifier :=
  @endsInName_snoc [] token

/-- A name alone is a target. -/
theorem target_name {name : Token} (h : name.kind = .identifier) : DerivesLeniently target [name] := by
  have bare : DerivesLeniently target ([] ++ [name]) := .seq .absent (.terminal h)
  exact bare

/-- What ends in a name and is applied to nothing is a target. -/
theorem target_of_primary {ts : List Token} (h : DerivesLeniently (rule .primary) ts)
    (hname : EndsInName ts) : DerivesLeniently target ts := by
  have other : ∀ {token : Token} {kind}, token.kind = kind → kind ≠ .identifier →
      ¬ EndsInName [token] := fun hkind hne h => hne (hkind.symm.trans (endsInName_singleton.mp h))
  obtain ((((((⟨token, rfl, _, hkind⟩ | ⟨token, rfl, _, hkind⟩) | ⟨token, rfl, hkind⟩) |
    ⟨token, rfl, hkind⟩) | ⟨token, rfl, hkind⟩) | ⟨token, rfl, hkind⟩) | ⟨token, rfl, hkind⟩) |
    ⟨_, _, rfl, -, closing, rfl, hclosing⟩ := spells_of_lenient h.of_rule
  case inl.inr => exact target_name hkind
  -- every other operand ends in a token of another kind
  case inr =>
    have closed := hclosing.symm.trans (endsInName_snoc.mp hname)
    cases closed
  all_goals exact (other hkind TokenKind.noConfusion hname).elim

/-- Targets are the calls and properties that end in a name. -/
theorem target_iff {ts : List Token} :
    DerivesLeniently target ts ↔ DerivesLeniently (rule .call) ts ∧ EndsInName ts := by
  constructor
  · intro h
    obtain ⟨_, _, rfl, rfl | ⟨us, _, rfl, hobject, dot, rfl, hdot⟩, name, rfl, hname⟩ :=
      spells_of_lenient h
    · have operand : DerivesLeniently (rule .primary) [name] :=
        .rule (.left (.right (.terminal hname)))
      exact ⟨.rule (.alone operand), endsInName_singleton.mpr hname⟩
    · refine ⟨.rule ?_, endsInName_snoc.mpr hname⟩
      cases DerivesLeniently.of_rule hobject with
      | seq hfirst hparts =>
        rw [List.append_assoc, List.append_assoc]
        exact .seq hfirst (hparts.many_snoc (.right (.seq (.terminal hdot) (.terminal hname))))
  · rintro ⟨h, hname⟩
    cases h.of_rule with
    | @seq _ _ us _ hfirst hmany =>
      obtain rfl | ⟨vs, ws, rfl, hparts, hpart⟩ := hmany.many_last
      · rw [List.append_nil] at hname ⊢
        exact target_of_primary hfirst hname
      · obtain ⟨_, _, rfl, -, closing, rfl, hclosing⟩ | ⟨_, _, rfl, ⟨dot, rfl, hdot⟩, name, rfl, hkind⟩ :=
          spells_of_lenient hpart
        · rw [← List.append_assoc, ← List.append_assoc] at hname
          cases hclosing.symm.trans (endsInName_snoc.mp hname)
        · have object : DerivesLeniently (rule .call) (us ++ vs) := .rule (.seq hfirst hparts)
          have property : DerivesLeniently target (us ++ vs ++ [dot] ++ [name]) :=
            .seq (.present (.seq object (.terminal hdot))) (.terminal hkind)
          rwa [List.append_assoc, List.append_assoc] at property

/-! ## Flaws -/

/-- The error that the first of the tokens is, if an item of a list begins there and there are as many
items before it as there can be. -/
def beyond (issue : SyntaxIssue) (index : Nat) : List Token → List SyntaxError
  | [] => []
  | token :: us => if maxArguments ≤ index then [⟨us.length + 1, token, issue⟩] else []

mutual

/-- The tokens `ts` derive a phrase by the lenient rules, and with the tokens `rest` behind them these are
the flaws in it: each item of a list that has too many in front of it, and each equals sign behind what is
no target. -/
inductive Flawed : Phrase → List Token → List Token → List SyntaxError → Prop
  | terminal {t rest token} : Terminal.Covers t token.kind → Flawed (.terminal t) rest [token] []
  | rule {name rest ts flaws} : name.lenient = name.phrase → Flawed name.phrase rest ts flaws →
      Flawed (.rule name) rest ts flaws
  | parameters {rest ts flaws} : FlawedItems .tooManyParameters ident 0 rest ts flaws →
      Flawed (.rule .parameters) rest ts flaws
  | arguments {rest ts flaws} : FlawedItems .tooManyArguments (.rule .expression) 0 rest ts flaws →
      Flawed (.rule .arguments) rest ts flaws
  | operand {rest ts flaws} : Flawed (.rule .logicOr) rest ts flaws →
      Flawed (.rule .assignment) rest ts flaws
  | assigned {rest ts equal us flaws more} : Flawed (.rule .logicOr) (equal :: us ++ rest) ts flaws →
      equal.kind = .symbol .equal → Flawed (.rule .assignment) rest us more →
      DerivesLeniently target ts → Flawed (.rule .assignment) rest (ts ++ equal :: us) (flaws ++ more)
  | misassigned {rest ts equal us flaws more} : Flawed (.rule .logicOr) (equal :: us ++ rest) ts flaws →
      equal.kind = .symbol .equal → Flawed (.rule .assignment) rest us more →
      ¬ DerivesLeniently target ts → Flawed (.rule .assignment) rest (ts ++ equal :: us)
        (flaws ++ more ++ [⟨(equal :: us ++ rest).length, equal, .invalidTarget⟩])
  | seq {p q rest ts us flaws more} : Flawed p (us ++ rest) ts flaws → Flawed q rest us more →
      Flawed (p ++ q) rest (ts ++ us) (flaws ++ more)
  | left {p q rest ts flaws} : Flawed p rest ts flaws → Flawed (p ||| q) rest ts flaws
  | right {p q rest ts flaws} : Flawed q rest ts flaws → Flawed (p ||| q) rest ts flaws
  | absent {p rest} : Flawed (.optional p) rest [] []
  | present {p rest ts flaws} : Flawed p rest ts flaws → Flawed (.optional p) rest ts flaws
  | noneOf {p rest} : Flawed (.many p) rest [] []
  | oneOf {p rest ts us flaws more} : Flawed p (us ++ rest) ts flaws → Flawed (.many p) rest us more →
      Flawed (.many p) rest (ts ++ us) (flaws ++ more)

/-- The tokens derive items with commas between them, `index` items in front of the first one. -/
inductive FlawedItems : SyntaxIssue → Phrase → Nat → List Token → List Token → List SyntaxError → Prop
  | last {issue item index rest ts flaws} : Flawed item rest ts flaws →
      FlawedItems issue item index rest ts (beyond issue index (ts ++ rest) ++ flaws)
  | more {issue item index rest ts comma us flaws more} : Flawed item (comma :: us ++ rest) ts flaws →
      comma.kind = .symbol .comma → FlawedItems issue item (index + 1) rest us more →
      FlawedItems issue item index rest (ts ++ comma :: us)
        (beyond issue index (ts ++ comma :: us ++ rest) ++ flaws ++ more)

end

/-- An item too many, or a wrong target. -/
def IsFlaw (e : SyntaxError) : Prop := e.issue ∈ [.tooManyParameters, .tooManyArguments, .invalidTarget]

theorem isFlaw_of_beyond {issue : SyntaxIssue} (hissue : issue = .tooManyParameters ∨ issue = .tooManyArguments)
    {index : Nat} {ts : List Token} : ∀ e ∈ beyond issue index ts, IsFlaw e := by
  intro e he
  cases ts with
  | nil => cases he
  | cons token us =>
    rw [beyond] at he
    split at he
    · obtain rfl := List.mem_singleton.mp he
      obtain rfl | rfl := hissue <;> simp [IsFlaw]
    · cases he

mutual

/-- There are no other flaws. -/
theorem isFlaw_of_flawed {p : Phrase} {rest ts : List Token} {flaws : List SyntaxError} :
    Flawed p rest ts flaws → ∀ e ∈ flaws, IsFlaw e
  | .terminal _ | .absent | .noneOf => List.forall_mem_nil _
  | .rule _ h | .operand h | .left h | .right h | .present h => isFlaw_of_flawed h
  | .parameters h => isFlaw_of_flawedItems (.inl rfl) h
  | .arguments h => isFlaw_of_flawedItems (.inr rfl) h
  | .assigned h _ h' _ | .seq h h' | .oneOf h h' =>
    List.forall_mem_append.mpr ⟨isFlaw_of_flawed h, isFlaw_of_flawed h'⟩
  | .misassigned h _ h' _ => by
    have both := List.forall_mem_append.mpr ⟨isFlaw_of_flawed h, isFlaw_of_flawed h'⟩
    exact List.forall_mem_append.mpr ⟨both, List.forall_mem_singleton.mpr (by simp [IsFlaw])⟩

theorem isFlaw_of_flawedItems {issue : SyntaxIssue} {item : Phrase} {index : Nat} {rest ts : List Token}
    {flaws : List SyntaxError} (hissue : issue = .tooManyParameters ∨ issue = .tooManyArguments) :
    FlawedItems issue item index rest ts flaws → ∀ e ∈ flaws, IsFlaw e
  | .last h => List.forall_mem_append.mpr ⟨isFlaw_of_beyond hissue, isFlaw_of_flawed h⟩
  | .more h _ hmore => List.forall_mem_append.mpr
    ⟨List.forall_mem_append.mpr ⟨isFlaw_of_beyond hissue, isFlaw_of_flawed h⟩,
      isFlaw_of_flawedItems hissue hmore⟩

end

/-! ## Meanings of phrases -/

/-- What is said of tokens, of those behind them and of the flaws in them. -/
abbrev Reading := List Token → List Token → List SyntaxError → Prop

/-- The reading holds of each of some parts that stand one behind the other. -/
inductive Repeated (R : Reading) : Reading
  | nil {rest} : Repeated R rest [] []
  | cons {rest ts us flaws more} : R (us ++ rest) ts flaws → Repeated R rest us more →
      Repeated R rest (ts ++ us) (flaws ++ more)

/-- What holds in front of each part and behind all of them holds in front of all of them. -/
theorem Repeated.follow {R : Reading} {stops : List Token → Prop}
    (next : ∀ {rest ts flaws}, R rest ts flaws → stops (ts ++ rest)) {rest ts : List Token}
    {flaws : List SyntaxError} (h : Repeated R rest ts flaws) (hrest : stops rest) :
    stops (ts ++ rest) := by
  cases h with
  | nil => exact hrest
  | cons hpart _ =>
    rw [List.append_assoc]
    exact next hpart

/-- The reading holds of items with commas between them, `index` items in front of the first one. -/
inductive Items (issue : SyntaxIssue) (R : Reading) : Nat → Reading
  | last {index rest ts flaws} : R rest ts flaws →
      Items issue R index rest ts (beyond issue index (ts ++ rest) ++ flaws)
  | more {index rest ts comma us flaws more} : R (comma :: us ++ rest) ts flaws →
      comma.kind = .symbol .comma → Items issue R (index + 1) rest us more →
      Items issue R index rest (ts ++ comma :: us)
        (beyond issue index (ts ++ comma :: us ++ rest) ++ flaws ++ more)

/-- What a phrase stands for, with its flaws, if each rule stands for what is in `meaning`. -/
def Phrase.Shows (meaning : Rule → Reading) : Phrase → Reading
  | .terminal t, _, ts, flaws => ∃ token, ts = [token] ∧ flaws = [] ∧ t.Covers token.kind
  | .rule name, rest, ts, flaws => meaning name rest ts flaws
  | .seq p q, rest, ts, flaws => ∃ us vs f g, ts = us ++ vs ∧ flaws = f ++ g ∧
      p.Shows meaning (vs ++ rest) us f ∧ q.Shows meaning rest vs g
  | .either p q, rest, ts, flaws => p.Shows meaning rest ts flaws ∨ q.Shows meaning rest ts flaws
  | .optional p, rest, ts, flaws => (ts = [] ∧ flaws = []) ∨ p.Shows meaning rest ts flaws
  | .many p, rest, ts, flaws => Repeated (p.Shows meaning) rest ts flaws
  | .atMost .., _, _, _ => False

theorem shows_choices {meaning : Rule → Reading} {p : Phrase} {kinds : List TokenKind}
    (h : p.choices = some kinds) {rest ts : List Token} {flaws : List SyntaxError}
    (hts : p.Shows meaning rest ts flaws) : ∃ token, ts = [token] ∧ flaws = [] ∧ token.kind ∈ kinds := by
  induction p generalizing kinds with
  | terminal t =>
    obtain ⟨token, rfl, rfl, hkind⟩ := hts
    refine ⟨token, rfl, rfl, ?_⟩
    exact (mem_choices_terminal h).mpr hkind
  | either p q ihp ihq =>
    obtain ⟨left, hleft, right, hright, rfl⟩ := choices_either h
    obtain hts | hts := hts
    · exact (ihp hleft hts).imp fun _ h => ⟨h.1, h.2.1, List.mem_append_left _ h.2.2⟩
    · exact (ihq hright hts).imp fun _ h => ⟨h.1, h.2.1, List.mem_append_right _ h.2.2⟩
  | _ => cases h

/-- The rules with their flaws do not lead out of the meanings, assignments apart. -/
structure Tolerant (meaning : Rule → Reading) : Prop where
  rule {name rest ts flaws} : name.lenient = name.phrase → DerivesLeniently (.rule name) ts →
    name.phrase.Shows meaning rest ts flaws → meaning name rest ts flaws
  parameters {rest ts flaws} : Items .tooManyParameters (ident.Shows meaning) 0 rest ts flaws →
    meaning .parameters rest ts flaws
  arguments {rest ts flaws} : Items .tooManyArguments (meaning .expression) 0 rest ts flaws →
    meaning .arguments rest ts flaws
  operand {rest ts flaws} : meaning .logicOr rest ts flaws → meaning .assignment rest ts flaws

/-- The rules with their flaws do not lead out of the meanings. -/
structure Closed (meaning : Rule → Reading) : Prop extends Tolerant meaning where
  assigned {rest ts equal us flaws more} : meaning .logicOr (equal :: us ++ rest) ts flaws →
    equal.kind = .symbol .equal → meaning .assignment rest us more → DerivesLeniently target ts →
    meaning .assignment rest (ts ++ equal :: us) (flaws ++ more)
  misassigned {rest ts equal us flaws more} : meaning .logicOr (equal :: us ++ rest) ts flaws →
    equal.kind = .symbol .equal → meaning .assignment rest us more → ¬ DerivesLeniently target ts →
    meaning .assignment rest (ts ++ equal :: us)
      (flaws ++ more ++ [⟨(equal :: us ++ rest).length, equal, .invalidTarget⟩])

section

variable {meaning : Rule → Reading}

/-- Items that are repeated with commas in front of them are items behind a first one. -/
theorem exists_items (issue : SyntaxIssue) {item : Phrase} {rest ts : List Token}
    {flaws : List SyntaxError} (h : (separated item).Shows meaning rest ts flaws) :
    ∃ all, Items issue (item.Shows meaning) 0 rest ts all := by
  obtain ⟨us, vs, f, g, rfl, -, hfirst, hmore⟩ := h
  -- by induction on the parts behind the first item, which each hold a comma and the item that is first then
  have behind : ∀ {rest vs g}, Repeated ((mark .comma ++ item).Shows meaning) rest vs g →
      ∀ {us f} index, item.Shows meaning (vs ++ rest) us f →
        ∃ all, Items issue (item.Shows meaning) index rest (us ++ vs) all := by
    intro rest vs g hmore
    induction hmore with
    | nil =>
      intro us f index hfirst
      rw [List.append_nil]
      exact ⟨_, .last hfirst⟩
    | cons hpart _ ih =>
      intro us f index hfirst
      obtain ⟨_, ws, _, _, rfl, rfl, ⟨comma, rfl, rfl, hcomma⟩, hitem⟩ := hpart
      obtain ⟨all, hall⟩ := ih (index + 1) hitem
      exact ⟨_, .more hfirst hcomma hall⟩
  exact behind hmore 0 hfirst

/-- What is derived shows its meaning, with some flaws or other. -/
theorem exists_shows (tolerant : Tolerant meaning) (assigned : ∀ {rest ts equal us flaws more},
      meaning .logicOr (equal :: us ++ rest) ts flaws → equal.kind = .symbol .equal →
      meaning .assignment rest us more → ∃ all, meaning .assignment rest (ts ++ equal :: us) all)
    {p : Phrase} {ts : List Token} (h : DerivesLeniently p ts) (rest : List Token) :
    ∃ flaws, p.Shows meaning rest ts flaws := by
  induction h generalizing rest with
  | terminal h => exact ⟨[], _, rfl, rfl, h⟩
  | @rule name ts h ih =>
    obtain ⟨flaws, hflaws⟩ := ih rest
    cases name
    case parameters => exact (exists_items _ hflaws).imp fun _ h => tolerant.parameters h
    case arguments => exact (exists_items _ hflaws).imp fun _ h => tolerant.arguments h
    case assignment =>
      obtain ⟨_, us, _, g, rfl, rfl, ⟨ts, _, f, _, rfl, rfl, htarget, equal, rfl, rfl, hequal⟩,
        hvalue⟩ | h := hflaws
      · rw [List.append_assoc]
        exact assigned htarget hequal hvalue
      · exact ⟨flaws, tolerant.operand h⟩
    all_goals exact ⟨flaws, tolerant.rule rfl (.rule h) hflaws⟩
  | seq _ _ ih ih' =>
    obtain ⟨g, hg⟩ := ih' rest
    obtain ⟨f, hf⟩ := ih _
    exact ⟨f ++ g, _, _, f, g, rfl, rfl, hf, hg⟩
  | left _ ih => exact (ih rest).imp fun _ h => .inl h
  | right _ ih => exact (ih rest).imp fun _ h => .inr h
  | absent => exact ⟨[], .inl ⟨rfl, rfl⟩⟩
  | present _ ih => exact (ih rest).imp fun _ h => .inr h
  | noneOf => exact ⟨[], .nil⟩
  | oneOf _ _ ih ih' =>
    obtain ⟨g, hg⟩ := ih' rest
    obtain ⟨f, hf⟩ := ih _
    exact ⟨f ++ g, .cons hf hg⟩

mutual

/-- Flaws are those of a derivation by the lenient rules. -/
theorem derives_of_flawed {p : Phrase} {rest ts : List Token} {flaws : List SyntaxError} :
    Flawed p rest ts flaws → DerivesLeniently p ts
  | .terminal h => .terminal h
  | .rule hname h => .of_phrase hname (derives_of_flawed h)
  | .parameters h => .rule (derives_of_flawedItems h)
  | .arguments h => .rule (derives_of_flawedItems h)
  | .operand h => .rule (.right (derives_of_flawed h))
  | .assigned htarget hequal hvalue _ =>
    .assigned (derives_of_flawed htarget) hequal (derives_of_flawed hvalue)
  | .misassigned htarget hequal hvalue _ =>
    .assigned (derives_of_flawed htarget) hequal (derives_of_flawed hvalue)
  | .seq h h' => .seq (derives_of_flawed h) (derives_of_flawed h')
  | .left h => .left (derives_of_flawed h)
  | .right h => .right (derives_of_flawed h)
  | .absent => .absent
  | .present h => .present (derives_of_flawed h)
  | .noneOf => .noneOf
  | .oneOf h h' => .oneOf (derives_of_flawed h) (derives_of_flawed h')

theorem derives_of_flawedItems {issue : SyntaxIssue} {item : Phrase} {index : Nat}
    {rest ts : List Token} {flaws : List SyntaxError} :
    FlawedItems issue item index rest ts flaws → DerivesLeniently (separated item) ts
  | .last h => .alone (derives_of_flawed h)
  | .more h hcomma hmore => .list_cons (derives_of_flawed h) hcomma (derives_of_flawedItems hmore)

end

mutual

/-- What is derived with its flaws shows a meaning that the rules do not lead out of. -/
theorem shows_of_flawed (closed : Closed meaning) {p : Phrase} {rest ts : List Token}
    {flaws : List SyntaxError} : Flawed p rest ts flaws → p.Shows meaning rest ts flaws
  | .terminal h => ⟨_, rfl, rfl, h⟩
  | .rule hname h =>
    closed.rule hname (.of_phrase hname (derives_of_flawed h)) (shows_of_flawed closed h)
  | .parameters h => closed.parameters (items_of_flawed closed h)
  | .arguments h => closed.arguments (items_of_flawed closed h)
  | .operand h => closed.operand (shows_of_flawed closed h)
  | .assigned htarget hequal hvalue h =>
    closed.assigned (shows_of_flawed closed htarget) hequal (shows_of_flawed closed hvalue) h
  | .misassigned htarget hequal hvalue h =>
    closed.misassigned (shows_of_flawed closed htarget) hequal (shows_of_flawed closed hvalue) h
  | .seq h h' => ⟨_, _, _, _, rfl, rfl, shows_of_flawed closed h, shows_of_flawed closed h'⟩
  | .left h => .inl (shows_of_flawed closed h)
  | .right h => .inr (shows_of_flawed closed h)
  | .absent => .inl ⟨rfl, rfl⟩
  | .present h => .inr (shows_of_flawed closed h)
  | .noneOf => .nil
  | .oneOf h h' => .cons (shows_of_flawed closed h) (shows_of_flawed closed h')

theorem items_of_flawed (closed : Closed meaning) {issue : SyntaxIssue} {item : Phrase} {index : Nat}
    {rest ts : List Token} {flaws : List SyntaxError} :
    FlawedItems issue item index rest ts flaws → Items issue (item.Shows meaning) index rest ts flaws
  | .last h => .last (shows_of_flawed closed h)
  | .more h hcomma hmore => .more (shows_of_flawed closed h) hcomma (items_of_flawed closed hmore)

end

end

/-! ## Every derivation has its flaws -/

theorem many_of_repeated {R : Reading} {p : Phrase} {rest ts : List Token} {flaws : List SyntaxError}
    (hR : ∀ {rest ts flaws}, R rest ts flaws → Flawed p rest ts flaws) (h : Repeated R rest ts flaws) :
    Flawed (.many p) rest ts flaws := by
  induction h with
  | nil => exact .noneOf
  | cons hpart _ ih => exact .oneOf (hR hpart) ih

/-- What shows the flaws of its rules has flaws itself. -/
theorem flawed_of_shows : ∀ {p : Phrase} {rest ts : List Token} {flaws : List SyntaxError},
    p.Shows (fun name => Flawed (.rule name)) rest ts flaws → Flawed p rest ts flaws
  | .terminal _, _, _, _, ⟨_, rfl, rfl, h⟩ => .terminal h
  | .rule _, _, _, _, h => h
  | .seq _ _, _, _, _, ⟨_, _, _, _, rfl, rfl, h, h'⟩ => .seq (flawed_of_shows h) (flawed_of_shows h')
  | .either _ _, _, _, _, .inl h => .left (flawed_of_shows h)
  | .either _ _, _, _, _, .inr h => .right (flawed_of_shows h)
  | .optional _, _, _, _, .inl ⟨rfl, rfl⟩ => .absent
  | .optional _, _, _, _, .inr h => .present (flawed_of_shows h)
  | .many _, _, _, _, h => many_of_repeated flawed_of_shows h

theorem flawed_of_items {issue : SyntaxIssue} {item : Phrase} {index : Nat} {rest ts : List Token}
    {flaws : List SyntaxError}
    (h : Items issue (item.Shows fun name => Flawed (.rule name)) index rest ts flaws) :
    FlawedItems issue item index rest ts flaws := by
  induction h with
  | last h => exact .last (flawed_of_shows h)
  | more h hcomma _ ih => exact .more (flawed_of_shows h) hcomma ih

/-- Whatever derives a phrase by the lenient rules has flaws, of which there may be none. -/
theorem exists_flawed {p : Phrase} {ts : List Token} (h : DerivesLeniently p ts) (rest : List Token) :
    ∃ flaws, Flawed p rest ts flaws := by
  refine (exists_shows ⟨?_, ?_, ?_, .operand⟩ ?_ h rest).imp fun _ => flawed_of_shows
  · exact fun hname _ h => .rule hname (flawed_of_shows h)
  · exact fun h => .parameters (flawed_of_items h)
  · exact fun h => .arguments (flawed_of_items h)
  · intro rest ts equal us flaws more htarget hequal hvalue
    -- an operand may have several derivations, of which this one need not be that of a target
    by_cases h : DerivesLeniently target ts
    · exact ⟨_, .assigned htarget hequal hvalue h⟩
    · exact ⟨_, .misassigned htarget hequal hvalue h⟩

end Lox.Grammar
