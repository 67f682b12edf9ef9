import Lox.Diagnostic
import Lox.Number.Decimal

/-!
# Cutting a source into tokens

A source is cut into *segments* from left to right. Each segment is as long as it can be: a blank, a
comment, a token, or characters that are part of no token. `segment` cuts off the first one, and
`segment_append` says that nothing is lost on the way.

A `Lexer` is a place in a source. Its `next?` goes over blanks and comments to the next `Item`, which
is a token or an issue, and carries the line of the end of its segment. After the last item comes
the token for the end of the source, and after that nothing.
-/

namespace Lox

/-! ### Segments -/

/-- What a segment is. -/
inductive Content where
  | blank
  | kind (k : TokenKind)
  | issue (cause : LexicalIssue)

/-- The first segment of a source, and what follows it. -/
structure Segment where
  content : Content
  text : List Char
  rest : List Char

namespace Segment

/-- The mark that a character is on its own, whatever follows. -/
def single? : Char → Option Symbol
  | '(' => some .leftParen
  | ')' => some .rightParen
  | '{' => some .leftBrace
  | '}' => some .rightBrace
  | ',' => some .comma
  | '.' => some .dot
  | '-' => some .minus
  | '+' => some .plus
  | ';' => some .semicolon
  | '*' => some .star
  | _ => none

/-- The operator that a character is on its own, and the one that it is before an equals sign. -/
def paired? : Char → Option (Symbol × Symbol)
  | '!' => some (.bang, .bangEqual)
  | '=' => some (.equal, .equalEqual)
  | '<' => some (.less, .lessEqual)
  | '>' => some (.greater, .greaterEqual)
  | _ => none

/-- The characters that only separate. -/
def isBlank (c : Char) : Bool := c == ' ' || c == '\r' || c == '\t' || c == '\n'

/-- The characters that a name starts with. -/
def isNameStart (c : Char) : Bool := c.isAlpha || c == '_'

/-- The characters that a name goes on with. -/
def isNamePart (c : Char) : Bool := c.isAlphanum || c == '_'

/-- The segment of an operator that an equals sign makes longer. -/
def operator (c : Char) (short long : Symbol) : List Char → Segment
  | '=' :: rest => ⟨.kind (.symbol long), [c, '='], rest⟩
  | rest => ⟨.kind (.symbol short), [c], rest⟩

/-- The segment that a slash starts: a second one makes it a comment up to the end of the line. -/
def slash : List Char → Segment
  | '/' :: rest =>
    ⟨.blank, '/' :: '/' :: rest.takeWhile (· != '\n'), rest.dropWhile (· != '\n')⟩
  | rest => ⟨.kind (.symbol .slash), ['/'], rest⟩

/-- The segment that a quote starts: it ends with the next quote or, unfinished, with the source. -/
def string (cs : List Char) : Segment :=
  let contents := cs.takeWhile (· != '"')
  match cs.dropWhile (· != '"') with
  | [] => ⟨.issue .unterminatedString, '"' :: contents, []⟩
  | quote :: rest =>
    ⟨.kind (.string (String.ofList contents)), '"' :: contents ++ [quote], rest⟩

/-- The value of a number, from the digits before and behind its point. -/
def number (whole fraction : List Char) : Content :=
  .kind (.number (Number.Decimal.ofDigits whole fraction).toFloat)

/-- The segment that a digit starts. A point belongs to it only if a digit follows. -/
def numeral (c : Char) (cs : List Char) : Segment :=
  let whole := c :: cs.takeWhile Char.isDigit
  match cs.dropWhile Char.isDigit with
  | '.' :: d :: more =>
    if d.isDigit then
      let fraction := d :: more.takeWhile Char.isDigit
      ⟨number whole fraction, whole ++ '.' :: fraction, more.dropWhile Char.isDigit⟩
    else ⟨number whole [], whole, '.' :: d :: more⟩
  | rest => ⟨number whole [], whole, rest⟩

/-- The kind of a word. -/
def wordKind (word : String) : TokenKind :=
  match Keyword.ofSpelling? word with
  | some keyword => .keyword keyword
  | none => .identifier

/-- The segment that the first character of a name starts. -/
def word (c : Char) (cs : List Char) : Segment :=
  let text := c :: cs.takeWhile isNamePart
  ⟨.kind (wordKind (String.ofList text)), text, cs.dropWhile isNamePart⟩

end Segment

open Segment in
/-- The first segment of a source that starts with `c` and goes on with `cs`. -/
def segment (c : Char) (cs : List Char) : Segment :=
  match single? c, paired? c with
  | some mark, _ => ⟨.kind (.symbol mark), [c], cs⟩
  | none, some (short, long) => operator c short long cs
  | none, none =>
    if isBlank c then ⟨.blank, [c], cs⟩
    else if c = '/' then slash cs
    else if c = '"' then string cs
    else if c.isDigit then numeral c cs
    else if isNameStart c then word c cs
    else ⟨.issue (.unexpectedCharacter c), [c], cs⟩

/-- A segment and what follows it are the whole source. -/
theorem segment_append (c : Char) (cs : List Char) :
    (segment c cs).text ++ (segment c cs).rest = c :: cs := by
  unfold segment
  split
  · rfl
  · unfold Segment.operator
    split <;> rfl
  · split
    · rfl
    split
    · next h =>
      subst h
      unfold Segment.slash
      split <;> simp
    split
    · next h =>
      subst h
      have := List.takeWhile_append_dropWhile (p := (· != '"')) (l := cs)
      unfold Segment.string
      split <;> simp_all
    split
    · have := List.takeWhile_append_dropWhile (p := Char.isDigit) (l := cs)
      unfold Segment.numeral
      split
      · split <;> simp_all
      · simp_all
    split
    · simp [Segment.word]
    · rfl

/-- A segment starts with the first character of the source. -/
theorem head?_segment_text (c : Char) (cs : List Char) :
    (segment c cs).text.head? = some c := by
  unfold segment
  split
  · rfl
  · unfold Segment.operator
    split <;> rfl
  · split
    · rfl
    split
    · next h =>
      subst h
      unfold Segment.slash
      split <;> rfl
    split
    · next h =>
      subst h
      unfold Segment.string
      split <;> rfl
    split
    · unfold Segment.numeral
      split
      · split <;> rfl
      · rfl
    split
    · rfl
    · rfl

/-- A segment is never empty, so what follows it is shorter than the source. -/
theorem length_segment_rest_le (c : Char) (cs : List Char) :
    (segment c cs).rest.length ≤ cs.length := by
  have whole := congrArg List.length (segment_append c cs)
  have start := head?_segment_text c cs
  cases htext : (segment c cs).text with
  | nil => simp [htext] at start
  | cons first more =>
    simp only [htext, List.cons_append, List.length_cons, List.length_append] at whole
    omega

/-! ### Items -/

/-- What a source holds, blanks and comments apart. -/
inductive Item where
  | token (t : Token)
  | issue (line : Nat) (cause : LexicalIssue)

/-- A place in a source: the line, and what is left unless the end has been announced. -/
structure Lexer where
  line : Nat
  rest? : Option (List Char)

namespace Lexer

/-- The start of a source. -/
def ofString (source : String) : Lexer := ⟨1, some source.toList⟩

/-- The first item of `cs`, which starts on line `line`, and the place behind it. -/
def item (line : Nat) (cs : List Char) : Item × Lexer :=
  match cs with
  | [] => (.token (.eof line), ⟨line, none⟩)
  | c :: more =>
    let line := line + (segment c more).text.count '\n'
    let rest := (segment c more).rest
    match (segment c more).content with
    | .blank => item line rest
    | .kind kind =>
      (.token ⟨kind, String.ofList (segment c more).text, line⟩, ⟨line, some rest⟩)
    | .issue issue => (.issue line issue, ⟨line, some rest⟩)
  termination_by cs.length
  decreasing_by exact Nat.lt_succ_of_le (length_segment_rest_le c more)

/-- The next item and the place behind it. -/
def next? (lexer : Lexer) : Option (Item × Lexer) := lexer.rest?.map (item lexer.line)

/-- The number of characters that are left, the end of the source counted as one. -/
def size (lexer : Lexer) : Nat :=
  match lexer.rest? with
  | none => 0
  | some cs => cs.length + 1

theorem size_item (line : Nat) (cs : List Char) : (item line cs).2.size ≤ cs.length := by
  fun_induction item line cs with
  | case1 => simp [size]
  | case2 line c more line' rest hcontent ih =>
    exact Nat.le_trans ih (Nat.le_succ_of_le (length_segment_rest_le c more))
  | case3 line c more line' rest kind hcontent =>
    exact Nat.succ_le_succ (length_segment_rest_le c more)
  | case4 line c more line' rest issue hcontent =>
    exact Nat.succ_le_succ (length_segment_rest_le c more)

theorem size_of_next? {lexer rest : Lexer} {item : Item}
    (h : lexer.next? = some (item, rest)) : rest.size < lexer.size := by
  obtain ⟨line, _ | cs⟩ := lexer
  · simp [next?] at h
  · simp only [next?, Option.map_some, Option.some.injEq] at h
    have := size_item line cs
    rw [h] at this
    exact Nat.lt_succ_of_le this

/-- All items from a place on. -/
def items (lexer : Lexer) : List Item :=
  match _ : lexer.next? with
  | none => []
  | some (item, rest) => item :: rest.items
  termination_by lexer.size
  decreasing_by exact size_of_next? ‹_›

end Lexer

/-! ### Scanning a whole source -/

/-- The token of an item, if it is one. -/
def Item.token? : Item → Option Token
  | token t => some t
  | issue .. => none

/-- The diagnostic of an item, if it is an issue. -/
def Item.diagnostic? : Item → Option Diagnostic
  | token _ => none
  | issue line cause => some (.lexical line cause)

/-- The items of a source. -/
def itemsOf (source : String) : List Item := (Lexer.ofString source).items

/-- The tokens of a source; the last one is its end. -/
def tokensOf (source : String) : List Token := (itemsOf source).filterMap Item.token?

/-- What is wrong with the characters of a source. -/
def lexicalIssuesOf (source : String) : List Diagnostic :=
  (itemsOf source).filterMap Item.diagnostic?

end Lox
