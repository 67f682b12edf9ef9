import Lox.Proofs.Token.Items

/-!
# One source behind another

A blank ends what stands in front of it, but for comments, which end with the line, and strings, which end
with their closing quote. So the end of a line keeps two sources apart. Behind a source whose strings are
closed, and behind the end of its last line, the other source is cut as if it stood alone (`scan_join`).
Only its lines are other ones.
-/

namespace Lox

/-! ## Segments in front of a blank -/

/-- What stops in a list, or in front of the next one, stops there also if they are joined. -/
theorem span_append {α : Type} (test : α → Bool) (cs more : List α)
    (h : cs.dropWhile test ≠ [] ∨ ∀ c ∈ more.head?, test c = false) :
    (cs ++ more).takeWhile test = cs.takeWhile test ∧
      (cs ++ more).dropWhile test = cs.dropWhile test ++ more := by
  induction cs with
  | nil =>
    rcases h with h | h
    · exact absurd rfl h
    · cases more with
      | nil => exact ⟨rfl, rfl⟩
      | cons c more => simp [h c rfl]
  | cons c cs ih =>
    cases htest : test c with
    | true =>
      obtain ⟨htake, hdrop⟩ := ih (by simpa [htest] using h)
      simp [htest, htake, hdrop]
    | false => simp [htest]

namespace Segment

/-- The segment with more behind it. -/
def before (segment : Segment) (more : List Char) : Segment :=
  { segment with rest := segment.rest ++ more }

theorem ne_of_isBlank {b c : Char} (hb : isBlank b) (hc : isBlank c = false) : b ≠ c := by
  rintro rfl
  exact Bool.false_ne_true (hc.symm.trans hb)

theorem isNamePart_of_isBlank {b : Char} (hb : isBlank b) : isNamePart b = false := by
  simp only [isBlank, Bool.or_eq_true, beq_iff_eq] at hb
  rcases hb with ((rfl | rfl) | rfl) | rfl <;> rfl

theorem isDigit_of_isBlank {b : Char} (hb : isBlank b) : b.isDigit = false :=
  Bool.eq_false_iff.mpr fun hdigit =>
    Bool.false_ne_true ((isNamePart_of_isBlank hb).symm.trans (by simp [isNamePart, Char.isAlphanum, hdigit]))

variable {b : Char} (more cs : List Char)

theorem operator_append_blank (hb : isBlank b) (c : Char) (short long : Symbol) :
    operator c short long (cs ++ b :: more) = (operator c short long cs).before (b :: more) := by
  cases cs with
  | nil => simp [operator, before, ne_of_isBlank hb (rfl : isBlank '=' = false)]
  | cons d cs =>
    by_cases hd : d = '='
    · subst hd
      rfl
    · simp [operator, before, hd]

/-- A comment ends with the line only. -/
theorem slash_append_blank (hb : isBlank b) (hline : (slash cs).content = .blank → b = '\n') :
    slash (cs ++ b :: more) = (slash cs).before (b :: more) := by
  cases cs with
  | nil => simp [slash, before, ne_of_isBlank hb (rfl : isBlank '/' = false)]
  | cons d cs =>
    by_cases hd : d = '/'
    · subst hd
      obtain rfl := hline rfl
      obtain ⟨htake, hdrop⟩ := span_append (· != '\n') cs ('\n' :: more) (.inr (by simp))
      simp [slash, before, htake, hdrop]
    · simp [slash, before, hd]

/-- A string may hold blanks, and so its closing quote has to be there. -/
theorem string_append_blank (h : (string cs).content ≠ .issue .unterminatedString) :
    string (cs ++ b :: more) = (string cs).before (b :: more) := by
  cases hrest : cs.dropWhile (· != '"') with
  | nil => exact absurd (by simp only [string, hrest]) h
  | cons quote rest =>
    obtain ⟨htake, hdrop⟩ := span_append _ _ (b :: more)
      (.inl (hrest ▸ List.cons_ne_nil quote rest))
    simp [string, before, htake, hdrop, hrest]

/-- A point in front of a blank belongs to no number. -/
theorem numeral_append_blank (hb : isBlank b) (c : Char) :
    numeral c (cs ++ b :: more) = (numeral c cs).before (b :: more) := by
  have blank := isDigit_of_isBlank hb
  have stop : ∀ d ∈ (b :: more).head?, d.isDigit = false := by
    rintro _ ⟨⟩
    exact blank
  have point : b ≠ '.' := ne_of_isBlank hb rfl
  obtain ⟨htake, hdrop⟩ := span_append _ cs _ (.inr stop)
  unfold numeral
  rw [htake, hdrop]
  match cs.dropWhile Char.isDigit with
  | [] => simp [before, point]
  | [d] =>
    by_cases hd : d = '.'
    · subst hd
      simp [before, blank]
    · simp [before, hd]
  | d :: e :: rest =>
    by_cases hd : d = '.'
    · subst hd
      obtain ⟨htake, hdrop⟩ := span_append _ rest _ (.inr stop)
      cases he : e.isDigit <;> simp [before, he, htake, hdrop]
    · simp [before, hd]

theorem word_append_blank (hb : isBlank b) (c : Char) :
    word c (cs ++ b :: more) = (word c cs).before (b :: more) := by
  have stop : ∀ d ∈ (b :: more).head?, isNamePart d = false := by
    rintro _ ⟨⟩
    exact isNamePart_of_isBlank hb
  obtain ⟨htake, hdrop⟩ := span_append _ cs _ (.inr stop)
  simp [word, before, htake, hdrop]

end Segment

open Segment in
/-- A blank changes nothing about a segment in front of it, unless it is part of a comment or of a string
without a closing quote. -/
theorem segment_append_blank {b c : Char} {cs : List Char} (hb : isBlank b)
    (hquote : (segment c cs).content ≠ .issue .unterminatedString)
    (hline : (segment c cs).content = .blank → b = '\n') (more : List Char) :
    segment c (cs ++ b :: more) = (segment c cs).before (b :: more) := by
  revert hquote hline
  unfold segment
  split
  · exact fun _ _ => rfl
  · exact fun _ _ => operator_append_blank more cs hb c _ _
  · split
    · exact fun _ _ => rfl
    split
    · exact fun _ => slash_append_blank more cs hb
    split
    · exact fun hquote _ => string_append_blank more cs hquote
    split
    · exact fun _ _ => numeral_append_blank more cs hb c
    split
    · exact fun _ _ => word_append_blank more cs hb c
    · exact fun _ _ => rfl

/-! ## Other lines -/

/-- The token on another line. -/
def Token.relined (line : Nat → Nat) (token : Token) : Token :=
  { token with line := line token.line }

/-- The item on another line. -/
def Item.relined (line : Nat → Nat) : Item → Item
  | .token t => .token (t.relined line)
  | .issue n cause => .issue (line n) cause

/-- The diagnostic on another line. -/
def Diagnostic.relined (line : Nat → Nat) : Diagnostic → Diagnostic
  | .lexical n issue => .lexical (line n) issue
  | .syntactic site issue => .syntactic { site with line := line site.line } issue
  | .scoping site issue => .scoping { site with line := line site.line } issue
  | .runtime n fault => .runtime (line n) fault
  | .output message => .output message
  | .encoding issue => .encoding issue

/-- How far a source moves the lines of the source behind it: by its own lines. -/
def linesOf (source : String) : Nat := source.toList.count '\n' + 1

namespace Lexer

/-- The items of a source in front of its end. -/
def wordsFrom (line : Nat) (cs : List Char) : List Item := (itemsFrom line cs).dropLast

theorem wordsFrom_nil (line : Nat) : wordsFrom line [] = [] := by
  rw [wordsFrom, itemsFrom_nil]
  rfl

theorem itemsFrom_ne_nil (line : Nat) (cs : List Char) : itemsFrom line cs ≠ [] := by
  rw [itemsFrom_eq]
  exact List.cons_ne_nil _ _

theorem wordsFrom_cons (line : Nat) (c : Char) (cs : List Char) :
    wordsFrom line (c :: cs) =
      ((segment c cs).item? (line + (segment c cs).text.count '\n')).toList ++
        wordsFrom (line + (segment c cs).text.count '\n') (segment c cs).rest := by
  rw [wordsFrom, itemsFrom_cons, List.dropLast_append_of_ne_nil (itemsFrom_ne_nil _ _)]
  rfl

/-- The last item of a source is its end, on its last line. -/
theorem itemsFrom_eq_wordsFrom (line : Nat) (cs : List Char) :
    itemsFrom line cs = wordsFrom line cs ++ [.token (.eof (line + cs.count '\n'))] := by
  match cs with
  | [] =>
    rw [itemsFrom_nil, wordsFrom_nil]
    rfl
  | c :: more =>
    have whole := congrArg (List.count '\n') (segment_append c more)
    rw [List.count_append] at whole
    rw [itemsFrom_cons, wordsFrom_cons, itemsFrom_eq_wordsFrom, List.append_assoc, Nat.add_assoc, whole]
  termination_by cs.length
  decreasing_by exact Nat.lt_succ_of_le (length_segment_rest_le c more)

/-- The lines are counted from the one on which a source starts. -/
theorem wordsFrom_add (line shift : Nat) (cs : List Char) :
    wordsFrom (line + shift) cs = (wordsFrom line cs).map (Item.relined (· + shift)) := by
  match cs with
  | [] => rw [wordsFrom_nil, wordsFrom_nil]; rfl
  | c :: more =>
    have hline : line + shift + (segment c more).text.count '\n' =
        line + (segment c more).text.count '\n' + shift := Nat.add_right_comm ..
    have first : (segment c more).item? (line + (segment c more).text.count '\n' + shift) =
        ((segment c more).item? (line + (segment c more).text.count '\n')).map
          (Item.relined (· + shift)) := by
      unfold Segment.item?
      cases (segment c more).content <;> rfl
    rw [wordsFrom_cons, wordsFrom_cons, hline, first, wordsFrom_add _ shift, List.map_append,
      Option.toList_map]
  termination_by cs.length
  decreasing_by exact Nat.lt_succ_of_le (length_segment_rest_le c more)

/-- Behind a source whose strings have their closing quotes, another one is cut as if it stood alone. -/
theorem wordsFrom_join {line : Nat} {cs : List Char}
    (h : ∀ n, .issue n .unterminatedString ∉ wordsFrom line cs) (more : List Char) :
    wordsFrom line (cs ++ '\n' :: more) =
      wordsFrom line cs ++ wordsFrom (line + cs.count '\n' + 1) more := by
  match cs with
  | [] =>
    rw [wordsFrom_nil, List.nil_append, wordsFrom_cons]
    rfl
  | c :: rest =>
    have first : (segment c rest).content ≠ .issue .unterminatedString := by
      intro hissue
      refine h (line + (segment c rest).text.count '\n') ?_
      rw [wordsFrom_cons]
      exact List.mem_append_left _ (by simp only [Segment.item?, hissue]; exact List.mem_cons_self)
    have later : ∀ n, .issue n .unterminatedString ∉
        wordsFrom (line + (segment c rest).text.count '\n') (segment c rest).rest := by
      intro n hitem
      refine h n ?_
      rw [wordsFrom_cons]
      exact List.mem_append_right _ hitem
    have whole := congrArg (List.count '\n') (segment_append c rest)
    rw [List.count_append] at whole
    have ih := wordsFrom_join later more
    rw [Nat.add_assoc line, whole] at ih
    rw [List.cons_append, wordsFrom_cons, wordsFrom_cons,
      segment_append_blank rfl first (fun _ => rfl), List.append_assoc, ← ih]
    rfl
  termination_by cs.length
  decreasing_by exact Nat.lt_succ_of_le (length_segment_rest_le c rest)

end Lexer

/-! ## Tokens and issues of sources -/

/-- The tokens of a source in front of its end. -/
def wordsOf (source : String) : List Token := (tokensOf source).takeWhile (·.kind != .eof)

theorem kind_ne_eof_of_segment {c : Char} {cs : List Char} {kind : TokenKind}
    (h : (segment c cs).content = .kind kind) : kind ≠ .eof := by
  rintro rfl
  revert h
  unfold segment
  split
  · rintro ⟨⟩
  · unfold Segment.operator
    split <;> rintro ⟨⟩
  · split
    · rintro ⟨⟩
    split
    · unfold Segment.slash
      split <;> rintro ⟨⟩
    split
    · unfold Segment.string
      split <;> rintro ⟨⟩
    split
    · unfold Segment.numeral Segment.number
      split
      · split <;> rintro ⟨⟩
      · rintro ⟨⟩
    split
    · unfold Segment.word Segment.wordKind
      simp only
      split <;> rintro ⟨⟩
    · rintro ⟨⟩

/-- No item in front of the end of a source is an end. -/
theorem kind_ne_eof_of_words {line : Nat} {cs : List Char} {token : Token}
    (h : .token token ∈ Lexer.wordsFrom line cs) : token.kind ≠ .eof := by
  match cs with
  | [] =>
    rw [Lexer.wordsFrom_nil] at h
    exact absurd h List.not_mem_nil
  | c :: more =>
    rw [Lexer.wordsFrom_cons, List.mem_append, Option.mem_toList] at h
    rcases h with hfirst | hrest
    · rw [Segment.item?] at hfirst
      split at hfirst
      · nomatch hfirst
      · next kind hcontent =>
        injection hfirst with hfirst
        injection hfirst with hfirst
        subst hfirst
        exact kind_ne_eof_of_segment hcontent
      · nomatch hfirst
    · exact kind_ne_eof_of_words hrest
  termination_by cs.length
  decreasing_by exact Nat.lt_succ_of_le (length_segment_rest_le c more)

theorem wordsOf_eq (source : String) :
    wordsOf source = (Lexer.wordsFrom 1 source.toList).filterMap Item.token? := by
  have words : ∀ token ∈ (Lexer.wordsFrom 1 source.toList).filterMap Item.token?,
      (token.kind != .eof) = true := by
    intro token htoken
    obtain ⟨item, hitem, hsome⟩ := List.mem_filterMap.mp htoken
    cases item with
    | issue line cause => nomatch hsome
    | token t =>
      injection hsome with hsome
      exact bne_iff_ne.mpr (kind_ne_eof_of_words (hsome ▸ hitem))
  show ((Lexer.itemsFrom 1 source.toList).filterMap Item.token?).takeWhile _ = _
  rw [Lexer.itemsFrom_eq_wordsFrom, List.filterMap_append, List.takeWhile_append_of_pos words]
  exact List.append_nil _

theorem lexicalIssuesOf_eq (source : String) :
    lexicalIssuesOf source = (Lexer.wordsFrom 1 source.toList).filterMap Item.diagnostic? := by
  show (Lexer.itemsFrom 1 source.toList).filterMap Item.diagnostic? = _
  rw [Lexer.itemsFrom_eq_wordsFrom, List.filterMap_append]
  exact List.append_nil _

/-- The last token of a source is its end, on its last line. -/
theorem tokensOf_eq_wordsOf (source : String) :
    tokensOf source = wordsOf source ++ [.eof (linesOf source)] := by
  show (Lexer.itemsFrom 1 source.toList).filterMap Item.token? = _
  rw [Lexer.itemsFrom_eq_wordsFrom, List.filterMap_append, ← wordsOf_eq, Nat.add_comm]
  rfl

/-- All strings of a source have their closing quotes. -/
def StringsClosed (source : String) : Prop :=
  ∀ line, .lexical line .unterminatedString ∉ lexicalIssuesOf source

theorem stringsClosed_of_quiet {source : String} (h : lexicalIssuesOf source = []) :
    StringsClosed source :=
  fun _ hissue => List.not_mem_nil (h ▸ hissue)

section

variable {first : String}

private theorem words_join (h : StringsClosed first) (second : String) :
    Lexer.wordsFrom 1 (first ++ "\n" ++ second).toList =
      Lexer.wordsFrom 1 first.toList ++
        (Lexer.wordsFrom 1 second.toList).map (Item.relined (· + linesOf first)) := by
  have closed : ∀ n, .issue n .unterminatedString ∉ Lexer.wordsFrom 1 first.toList := by
    intro n hitem
    refine h n ?_
    rw [lexicalIssuesOf_eq]
    exact List.mem_filterMap.mpr ⟨_, hitem, rfl⟩
  have chars : (first ++ "\n" ++ second).toList = first.toList ++ '\n' :: second.toList := by simp
  rw [chars, Lexer.wordsFrom_join closed, Nat.add_assoc, Lexer.wordsFrom_add]
  rfl

/-- Behind a source whose strings are closed, the tokens of another one are the same, on lines further
down. -/
theorem wordsOf_join (h : StringsClosed first) (second : String) :
    wordsOf (first ++ "\n" ++ second) =
      wordsOf first ++ (wordsOf second).map (Token.relined (· + linesOf first)) := by
  rw [wordsOf_eq, wordsOf_eq, wordsOf_eq, words_join h, List.filterMap_append,
    List.filterMap_map, List.map_filterMap]
  congr 2
  funext item
  cases item <;> rfl

/-- So is what is wrong with the characters of both. -/
theorem lexicalIssuesOf_join (h : StringsClosed first) (second : String) :
    lexicalIssuesOf (first ++ "\n" ++ second) =
      lexicalIssuesOf first ++
        (lexicalIssuesOf second).map (Diagnostic.relined (· + linesOf first)) := by
  rw [lexicalIssuesOf_eq, lexicalIssuesOf_eq, lexicalIssuesOf_eq, words_join h,
    List.filterMap_append, List.filterMap_map, List.map_filterMap]
  congr 2
  funext item
  cases item <;> rfl

/-- Two sources without issues have none together. -/
theorem lexicalIssuesOf_join_nil (h : lexicalIssuesOf first = []) {second : String}
    (h' : lexicalIssuesOf second = []) : lexicalIssuesOf (first ++ "\n" ++ second) = [] := by
  rw [lexicalIssuesOf_join (stringsClosed_of_quiet h), h, h']
  rfl

end

/-- One source behind the end of the last line of another one has the tokens of that one without its end,
and then its own, and likewise what is wrong with the characters of both. Its lines are moved down by
those of the source in front of it, and that is all, unless this one ends in a string without a closing
quote. -/
theorem scan_join {first : String} (h : StringsClosed first) (second : String) :
    tokensOf first = wordsOf first ++ [.eof (linesOf first)] ∧
      tokensOf (first ++ "\n" ++ second) =
        wordsOf first ++ (tokensOf second).map (Token.relined (· + linesOf first)) ∧
      lexicalIssuesOf (first ++ "\n" ++ second) =
        lexicalIssuesOf first ++
          (lexicalIssuesOf second).map (Diagnostic.relined (· + linesOf first)) := by
  have lines : linesOf (first ++ "\n" ++ second) = linesOf second + linesOf first := by
    simp only [linesOf, String.toList_append, List.count_append]
    have newline : ("\n" : String).toList.count '\n' = 1 := rfl
    omega
  refine ⟨tokensOf_eq_wordsOf first, ?_, lexicalIssuesOf_join h second⟩
  rw [tokensOf_eq_wordsOf, tokensOf_eq_wordsOf second, wordsOf_join h, lines, List.map_append,
    List.append_assoc]
  rfl

private theorem items_of_bad_slash :
    itemsOf "é/" = [.issue 1 (.unexpectedCharacter 'é'), .token ⟨.symbol .slash, "/", 1⟩,
      .token (.eof 1)] := by
  rw [itemsOf_eq_itemsWithin]
  rfl

private theorem items_of_slash_quote :
    itemsOf "/\"" = [.token ⟨.symbol .slash, "/", 1⟩, .issue 1 .unterminatedString,
      .token (.eof 1)] := by
  rw [itemsOf_eq_itemsWithin]
  rfl

/-- The end of the line keeps two slashes from being a comment, and what is wrong in front of it and
behind it is found as well. -/
theorem scan_join_slashes :
    StringsClosed "é/" ∧
      tokensOf ("é/" ++ "\n" ++ "/\"") =
        [⟨.symbol .slash, "/", 1⟩, ⟨.symbol .slash, "/", 2⟩, .eof 2] ∧
      lexicalIssuesOf ("é/" ++ "\n" ++ "/\"") =
        [.lexical 1 (.unexpectedCharacter 'é'), .lexical 2 .unterminatedString] := by
  have issues : lexicalIssuesOf "é/" = [.lexical 1 (.unexpectedCharacter 'é')] := by
    rw [lexicalIssuesOf, items_of_bad_slash]
    rfl
  have closed : StringsClosed "é/" := by
    intro line hline
    rw [issues] at hline
    nomatch List.mem_singleton.mp hline
  obtain ⟨-, tokens, both⟩ := scan_join closed "/\""
  refine ⟨closed, tokens.trans ?_, both.trans ?_⟩
  · rw [wordsOf, tokensOf, tokensOf, items_of_bad_slash, items_of_slash_quote]
    rfl
  · rw [issues, lexicalIssuesOf, items_of_slash_quote]
    rfl

end Lox
