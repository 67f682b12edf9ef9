import Lox.Diagnostic
import Lox.Token.Basic

/-!
# The grammar of the language

The rules as they are documented, as data: each rule has a name and a `Phrase`, which says what tokens
it stands for in terms of single tokens and other rules. A source derives a rule if its tokens can be
cut up the way the phrase says (`Derives`).

Derivations say nothing of trees, and they can be ambiguous: an `else` may belong to either of two
conditions. `derives_spells` is what all reasoning about them goes through. It is the induction over
derivations, in the form that a set of tokens for each rule which the rules do not lead out of contains
everything that is derived.
-/

namespace Lox.Grammar

/-! ## Phrases -/

/-- The names of the rules. -/
inductive Rule where
  | program
  | declaration
  | classDecl
  | funDecl
  | function
  | varDecl
  | statement
  | exprStmt
  | forStmt
  | ifStmt
  | printStmt
  | returnStmt
  | whileStmt
  | block
  | parameters
  | expression
  | assignment
  | logicOr
  | logicAnd
  | equality
  | comparison
  | term
  | factor
  | unary
  | call
  | arguments
  | primary

/-- What stands for a single token. -/
inductive Terminal where
  | ident
  | number
  | string
  | word (keyword : Keyword)
  | mark (symbol : Symbol)

/-- Holds of the kinds of tokens that a terminal stands for. -/
def Terminal.Covers : Terminal → TokenKind → Prop
  | .ident, kind => kind = .identifier
  | .number, kind => ∃ value, kind = .number value
  | .string, kind => ∃ contents, kind = .string contents
  | .word keyword, kind => kind = .keyword keyword
  | .mark symbol, kind => kind = .symbol symbol

/-- The right side of a rule. -/
inductive Phrase where
  | terminal (terminal : Terminal)
  | rule (name : Rule)
  | seq (first second : Phrase)
  | either (first second : Phrase)
  | optional (inner : Phrase)
  | many (inner : Phrase)
  | atMost (bound : Nat) (inner : Phrase)

/-- One phrase behind the other. -/
instance : Append Phrase := ⟨.seq⟩

/-- One phrase or the other. -/
instance : OrOp Phrase := ⟨.either⟩

namespace Phrase

/-- A name. -/
def ident : Phrase := terminal .ident

/-- A reserved word. -/
def word (keyword : Keyword) : Phrase := terminal (.word keyword)

/-- A mark of punctuation or an operator. -/
def mark (symbol : Symbol) : Phrase := terminal (.mark symbol)

/-- Operands with operators between them. -/
def operands (operand : Rule) (operators : Phrase) : Phrase :=
  rule operand ++ many (operators ++ rule operand)

/-- Items with commas between them, one at least and not more than arguments can be passed. -/
def listed (item : Phrase) : Phrase :=
  item ++ atMost (maxArguments - 1) (mark .comma ++ item)

/-- What can be assigned to. -/
def target : Phrase := optional (rule .call ++ mark .dot) ++ ident

end Phrase

open Phrase

/-- The rules. A program goes up to the end of its source. -/
def Rule.phrase : Rule → Phrase
  | program => many (rule declaration)
  | declaration => rule classDecl ||| rule funDecl ||| rule varDecl ||| rule statement
  | classDecl =>
    word .classKw ++ ident ++ mark .leftBrace ++ many (rule function) ++ mark .rightBrace
  | funDecl => word .funKw ++ rule function
  | function =>
    ident ++ mark .leftParen ++ optional (rule parameters) ++ mark .rightParen ++ rule block
  | varDecl =>
    word .varKw ++ ident ++ optional (mark .equal ++ rule expression) ++ mark .semicolon
  | statement =>
    rule exprStmt ||| rule forStmt ||| rule ifStmt ||| rule printStmt ||| rule returnStmt |||
      rule whileStmt ||| rule block
  | exprStmt => rule expression ++ mark .semicolon
  | forStmt =>
    word .forKw ++ mark .leftParen ++ (rule varDecl ||| rule exprStmt ||| mark .semicolon) ++
      optional (rule expression) ++ mark .semicolon ++ optional (rule expression) ++
      mark .rightParen ++ rule statement
  | ifStmt =>
    word .ifKw ++ mark .leftParen ++ rule expression ++ mark .rightParen ++ rule statement ++
      optional (word .elseKw ++ rule statement)
  | printStmt => word .printKw ++ rule expression ++ mark .semicolon
  | returnStmt => word .returnKw ++ optional (rule expression) ++ mark .semicolon
  | whileStmt =>
    word .whileKw ++ mark .leftParen ++ rule expression ++ mark .rightParen ++ rule statement
  | block => mark .leftBrace ++ many (rule declaration) ++ mark .rightBrace
  | parameters => listed ident
  | expression => rule assignment
  | assignment => target ++ mark .equal ++ rule assignment ||| rule logicOr
  | logicOr => operands logicAnd (word .orKw)
  | logicAnd => operands equality (word .andKw)
  | equality => operands comparison (mark .bangEqual ||| mark .equalEqual)
  | comparison =>
    operands term (mark .greater ||| mark .greaterEqual ||| mark .less ||| mark .lessEqual)
  | term => operands factor (mark .minus ||| mark .plus)
  | factor => operands unary (mark .slash ||| mark .star)
  | unary => (mark .bang ||| mark .minus) ++ rule unary ||| rule call
  | call =>
    rule primary ++
      many (mark .leftParen ++ optional (rule arguments) ++ mark .rightParen ||| mark .dot ++ ident)
  | arguments => listed (rule expression)
  | primary =>
    terminal .number ||| terminal .string ||| word .trueKw ||| word .falseKw ||| word .nilKw |||
      word .thisKw ||| ident ||| mark .leftParen ++ rule expression ++ mark .rightParen

/-! ## Derivations -/

/-- The tokens derive a phrase. -/
inductive Derives : Phrase → List Token → Prop
  | terminal {t token} : Terminal.Covers t token.kind → Derives (.terminal t) [token]
  | rule {name ts} : Derives name.phrase ts → Derives (.rule name) ts
  | seq {p q ts us} : Derives p ts → Derives q us → Derives (p ++ q) (ts ++ us)
  | left {p q ts} : Derives p ts → Derives (p ||| q) ts
  | right {p q ts} : Derives q ts → Derives (p ||| q) ts
  | absent {p} : Derives (.optional p) []
  | present {p ts} : Derives p ts → Derives (.optional p) ts
  | noneOf {p} : Derives (.many p) []
  | oneOf {p ts us} : Derives p ts → Derives (.many p) us → Derives (.many p) (ts ++ us)
  | noneMore {bound p} : Derives (.atMost bound p) []
  | oneMore {bound p ts us} : Derives p ts → Derives (.atMost bound p) us →
      Derives (.atMost (bound + 1) p) (ts ++ us)

/-- What a phrase stands for if each rule stands for the tokens in `meaning`. -/
def Phrase.Spells (meaning : Rule → List Token → Prop) : Phrase → List Token → Prop
  | .terminal t, ts => ∃ token, ts = [token] ∧ t.Covers token.kind
  | .rule name, ts => meaning name ts
  | .seq p q, ts => ∃ us vs, ts = us ++ vs ∧ p.Spells meaning us ∧ q.Spells meaning vs
  | .either p q, ts => p.Spells meaning ts ∨ q.Spells meaning ts
  | .optional p, ts => ts = [] ∨ p.Spells meaning ts
  | .many p, ts => ∃ parts : List (List Token), ts = parts.flatten ∧
      ∀ part ∈ parts, p.Spells meaning part
  | .atMost bound p, ts => ∃ parts : List (List Token), ts = parts.flatten ∧
      parts.length ≤ bound ∧ ∀ part ∈ parts, p.Spells meaning part

section
variable (meaning : Rule → List Token → Prop) (p q : Phrase) (ts : List Token)

@[simp] theorem spells_append : (p ++ q).Spells meaning ts ↔
    ∃ us vs, ts = us ++ vs ∧ p.Spells meaning us ∧ q.Spells meaning vs := Iff.rfl

@[simp] theorem spells_or :
    (p ||| q).Spells meaning ts ↔ p.Spells meaning ts ∨ q.Spells meaning ts := Iff.rfl

@[simp] theorem spells_ident : ident.Spells meaning ts ↔
    ∃ token, ts = [token] ∧ token.kind = .identifier := Iff.rfl

@[simp] theorem spells_word (keyword : Keyword) : (word keyword).Spells meaning ts ↔
    ∃ token, ts = [token] ∧ token.kind = .keyword keyword := Iff.rfl

@[simp] theorem spells_mark (symbol : Symbol) : (mark symbol).Spells meaning ts ↔
    ∃ token, ts = [token] ∧ token.kind = .symbol symbol := Iff.rfl

@[simp] theorem spells_rule (name : Rule) :
    (rule name).Spells meaning ts ↔ meaning name ts := Iff.rfl

@[simp] theorem spells_optional :
    (optional p).Spells meaning ts ↔ ts = [] ∨ p.Spells meaning ts := Iff.rfl

end

/-- Meanings that the rules do not lead out of contain what is derived. -/
theorem derives_spells {meaning : Rule → List Token → Prop}
    (closed : ∀ name ts, name.phrase.Spells meaning ts → meaning name ts) {p : Phrase}
    {ts : List Token} (h : Derives p ts) : p.Spells meaning ts := by
  induction h with
  | terminal h => exact ⟨_, rfl, h⟩
  | rule _ ih => exact closed _ _ ih
  | seq _ _ ih ih' => exact ⟨_, _, rfl, ih, ih'⟩
  | left _ ih => exact .inl ih
  | right _ ih => exact .inr ih
  | absent => exact .inl rfl
  | present _ ih => exact .inr ih
  | noneOf => exact ⟨[], rfl, fun _ h => absurd h List.not_mem_nil⟩
  | oneOf _ _ ih ih' =>
    obtain ⟨parts, rfl, hparts⟩ := ih'
    exact ⟨_ :: parts, rfl, List.forall_mem_cons.mpr ⟨ih, hparts⟩⟩
  | noneMore => exact ⟨[], rfl, Nat.zero_le _, fun _ h => absurd h List.not_mem_nil⟩
  | oneMore _ _ ih ih' =>
    obtain ⟨parts, rfl, hlength, hparts⟩ := ih'
    exact ⟨_ :: parts, rfl, Nat.succ_le_succ hlength, List.forall_mem_cons.mpr ⟨ih, hparts⟩⟩

theorem Derives.of_rule {name : Rule} {ts : List Token} (h : Derives (.rule name) ts) :
    Derives name.phrase ts := by
  cases h with
  | rule h => exact h

theorem Derives.append_many_nil {p q : Phrase} {ts : List Token} (h : Derives p ts) :
    Derives (p ++ many q) ts :=
  List.append_nil ts ▸ .seq h .noneOf

/-- A repetition goes on at its end as well. -/
theorem Derives.many_snoc {p : Phrase} {ts us : List Token} (h : Derives (many p) ts)
    (h' : Derives p us) : Derives (many p) (ts ++ us) := by
  generalize hq : many p = q at h
  induction h with
  | noneOf =>
    cases hq
    simpa using Derives.oneOf h' .noneOf
  | oneOf hfirst _ _ ih =>
    cases hq
    rw [List.append_assoc]
    exact .oneOf hfirst (ih rfl)
  | _ => cases hq

theorem Derives.append_many_snoc {p q : Phrase} {ts us : List Token}
    (h : Derives (p ++ many q) ts) (h' : Derives q us) : Derives (p ++ many q) (ts ++ us) := by
  generalize hr : p ++ many q = r at h
  cases h with
  | seq hp hq =>
    cases hr
    rw [List.append_assoc]
    exact .seq hp (hq.many_snoc h')
  | _ => cases hr

/-- The kinds of tokens in a choice of single words and marks. -/
def Phrase.choices : Phrase → Option (List TokenKind)
  | .terminal (.word keyword) => some [.keyword keyword]
  | .terminal (.mark symbol) => some [.symbol symbol]
  | .either p q => return (← p.choices) ++ (← q.choices)
  | _ => none

theorem mem_choices_terminal {t : Terminal} {kinds : List TokenKind}
    (h : (Phrase.terminal t).choices = some kinds) {kind : TokenKind} :
    kind ∈ kinds ↔ t.Covers kind := by
  cases t with
  | word keyword => cases h; exact List.mem_singleton
  | mark symbol => cases h; exact List.mem_singleton
  | _ => cases h

theorem choices_either {p q : Phrase} {kinds : List TokenKind}
    (h : (Phrase.either p q).choices = some kinds) :
    ∃ left, p.choices = some left ∧ ∃ right, q.choices = some right ∧ left ++ right = kinds := by
  simpa [Phrase.choices, Option.bind_eq_some_iff] using h

theorem spells_choices {meaning : Rule → List Token → Prop} {p : Phrase} {kinds : List TokenKind}
    (h : p.choices = some kinds) {ts : List Token} (hts : p.Spells meaning ts) :
    ∃ token, ts = [token] ∧ token.kind ∈ kinds := by
  induction p generalizing kinds with
  | terminal t =>
    obtain ⟨token, rfl, hkind⟩ := hts
    refine ⟨token, rfl, ?_⟩
    exact (mem_choices_terminal h).mpr hkind
  | either p q ihp ihq =>
    obtain ⟨left, hleft, right, hright, rfl⟩ := choices_either h
    obtain hts | hts := hts
    · exact (ihp hleft hts).imp fun _ h => ⟨h.1, List.mem_append_left _ h.2⟩
    · exact (ihq hright hts).imp fun _ h => ⟨h.1, List.mem_append_right _ h.2⟩
  | _ => cases h

theorem Derives.of_choices {p : Phrase} {kinds : List TokenKind} (h : p.choices = some kinds)
    {token : Token} (htoken : token.kind ∈ kinds) : Derives p [token] := by
  induction p generalizing kinds with
  | terminal t =>
    exact .terminal ((mem_choices_terminal h).mp htoken)
  | either p q ihp ihq =>
    obtain ⟨left, hleft, right, hright, rfl⟩ := choices_either h
    obtain hmem | hmem := List.mem_append.mp htoken
    · exact .left (ihp hleft hmem)
    · exact .right (ihq hright hmem)
  | _ => cases h

end Lox.Grammar
