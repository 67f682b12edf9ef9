import Lox.Proofs.Token.Joining
import Lox.Proofs.Token.Segmentation

/-!
# Space between tokens

How the tokens of a source are laid out does not matter. A text of the grammar is the same token wherever
it stands, as long as a blank or nothing follows (`wordsFrom_lexeme`), and blanks and whole comments are no
tokens (`wordsFrom_filler`). So the texts of the tokens of any source, put behind each other with other
space between them, are the same tokens again (`spacing_irrelevant`).
-/

namespace Lox

open Segment Lexer

/-! ## Separators -/

/-- Blanks and comments, each comment with the end of its line. -/
inductive Filler : List Char → Prop
  | nil : Filler []
  | blank {c : Char} {cs : List Char} : isBlank c → Filler cs → Filler (c :: cs)
  | comment {text cs : List Char} : '\n' ∉ text → Filler cs →
      Filler ('/' :: '/' :: text ++ '\n' :: cs)

/-- What keeps two tokens apart: a blank, and then blanks and comments. -/
def Separator (text : String) : Prop :=
  ∃ b more, text.toList = b :: more ∧ isBlank b ∧ Filler more

/-- Texts put behind each other, with a separator between any two neighbours. -/
inductive Spaced : List String → String → Prop
  | nil : Spaced [] ""
  | single (text : String) : Spaced [text] text
  | cons {text next gap rest : String} {more : List String} : Separator gap →
      Spaced (next :: more) rest → Spaced (text :: next :: more) (text ++ gap ++ rest)

/-- What a token is, and its text. -/
def Token.spelled (token : Token) : TokenKind × String := (token.kind, token.lexeme)

theorem Separator.filler {text : String} (h : Separator text) : Filler text.toList := by
  obtain ⟨b, more, htext, hb, hmore⟩ := h
  exact htext ▸ .blank hb hmore

theorem Separator.head {text : String} (h : Separator text) (rest : List Char) :
    ∀ b ∈ (text.toList ++ rest).head?, isBlank b := by
  obtain ⟨b, more, htext, hb, -⟩ := h
  rw [htext]
  rintro _ ⟨⟩
  exact hb

/-! ## Space holds no tokens -/

theorem slash_comment {text : List Char} (h : '\n' ∉ text) (rest : List Char) :
    slash ('/' :: (text ++ '\n' :: rest)) = ⟨.blank, '/' :: '/' :: text, '\n' :: rest⟩ := by
  have all : ∀ c ∈ text, (c != '\n') = true := fun c hc => by
    simpa using ne_of_mem_of_not_mem hc h
  simp [slash, List.takeWhile_append_of_pos all, List.dropWhile_append_of_pos all]

theorem wordsFrom_blank {b : Char} (hb : isBlank b) (line : Nat) (rest : List Char) :
    wordsFrom line (b :: rest) = wordsFrom (line + [b].count '\n') rest := by
  rw [wordsFrom_cons, segment_blank rest hb]
  rfl

/-- Blanks and comments only move what stands behind them to another line. -/
theorem wordsFrom_filler {fill : List Char} (h : Filler fill) (line : Nat) (rest : List Char) :
    wordsFrom line (fill ++ rest) = wordsFrom (line + fill.count '\n') rest := by
  induction h generalizing line with
  | nil => rfl
  | @blank c cs hc _ ih =>
    rw [List.cons_append, wordsFrom_blank hc, ih, Nat.add_assoc, ← List.count_append]
    rfl
  | @comment text cs htext _ ih =>
    have comment : segment '/' ('/' :: (text ++ '\n' :: (cs ++ rest))) =
        ⟨.blank, '/' :: '/' :: text, '\n' :: (cs ++ rest)⟩ := slash_comment htext _
    have whole : '/' :: '/' :: text ++ '\n' :: cs ++ rest =
        '/' :: '/' :: (text ++ '\n' :: (cs ++ rest)) := by simp
    rw [whole, wordsFrom_cons, comment]
    show wordsFrom (line + ('/' :: '/' :: text).count '\n') ('\n' :: (cs ++ rest)) = _
    rw [wordsFrom_blank rfl, ih, Nat.add_assoc, Nat.add_assoc, ← List.count_append,
      ← List.count_append]
    rfl

/-! ## Texts in front of space -/

section

variable {kind : TokenKind} {c : Char} {cs : List Char}

/-- A text of the grammar on its own is one segment. -/
theorem segment_lexeme (h : Lexical (.kind kind) (c :: cs)) :
    segment c cs = ⟨.kind kind, c :: cs, []⟩ := by
  obtain ⟨longer, -, same⟩ := segment_covers h []
  have whole := segment_append c cs
  have content := same rfl
  rw [List.append_nil] at longer content
  cases hsegment : segment c cs with
  | mk content' text rest =>
    simp only [hsegment] at longer content whole
    have lengths := congrArg List.length whole
    rw [List.length_append] at lengths
    obtain rfl : rest = [] := List.length_eq_zero_iff.mp (by omega)
    rw [List.append_nil] at whole
    rw [content, whole]

/-- So it is in front of a blank, or of nothing. -/
theorem segment_lexeme_append (h : Lexical (.kind kind) (c :: cs)) {rest : List Char}
    (hrest : ∀ b ∈ rest.head?, isBlank b) :
    segment c (cs ++ rest) = ⟨.kind kind, c :: cs, rest⟩ := by
  have alone := segment_lexeme h
  cases rest with
  | nil => rw [List.append_nil, alone]
  | cons b more =>
    rw [segment_append_blank (hrest b rfl) (by rw [alone]; nofun) (by rw [alone]; nofun), alone]
    rfl

end

/-- The text of a token is that token in front of a blank, or of nothing. -/
theorem wordsFrom_lexeme {kind : TokenKind} {text : List Char} (h : Lexical (.kind kind) text)
    (line : Nat) {rest : List Char} (hrest : ∀ b ∈ rest.head?, isBlank b) :
    wordsFrom line (text ++ rest) =
      .token ⟨kind, String.ofList text, line + text.count '\n'⟩ ::
        wordsFrom (line + text.count '\n') rest := by
  obtain ⟨c, cs, rfl⟩ := List.exists_cons_of_ne_nil h.ne_nil
  rw [List.cons_append, wordsFrom_cons, segment_lexeme_append h hrest]
  rfl

/-- The texts of tokens, with separators between them, are these tokens, on some lines. -/
theorem wordsFrom_spaced {tokens : List Token} {body : String}
    (hlexical : ∀ token ∈ tokens, Lexical (.kind token.kind) token.lexeme.toList)
    (hbody : Spaced (tokens.map (·.lexeme)) body) (line : Nat) {rest : List Char}
    (hrest : ∀ b ∈ rest.head?, isBlank b) :
    ∃ (placed : List Token) (line' : Nat), wordsFrom line (body.toList ++ rest) =
        placed.map Item.token ++ wordsFrom line' rest ∧
      placed.map Token.spelled = tokens.map Token.spelled := by
  induction tokens generalizing line body with
  | nil =>
    cases hbody
    exact ⟨[], line, rfl, rfl⟩
  | cons token more ih =>
    obtain ⟨hfirst, hmore⟩ := List.forall_mem_cons.mp hlexical
    cases more with
    | nil =>
      cases hbody
      exact ⟨[⟨token.kind, _, _⟩], _, wordsFrom_lexeme hfirst line hrest,
        by rw [String.ofList_toList]; rfl⟩
    | cons next others =>
      cases hbody with
      | @cons _ _ gap following _ hgap hfollowing =>
        -- the gap starts with a blank, which ends the first text, and goes on with filler only
        obtain ⟨placed, line', hwords, hspelled⟩ := ih hmore hfollowing
          (line + token.lexeme.toList.count '\n' + gap.toList.count '\n')
        refine ⟨⟨token.kind, token.lexeme, line + token.lexeme.toList.count '\n'⟩ :: placed, line', ?_,
          congrArg (List.cons _) hspelled⟩
        rw [String.toList_append, String.toList_append, List.append_assoc, List.append_assoc,
          wordsFrom_lexeme hfirst line (hgap.head _), wordsFrom_filler hgap.filler, hwords,
          String.ofList_toList]
        rfl

/-! ## The tokens of a source -/

/-- The text of a token of a source is what the grammar says of it. -/
theorem lexical_of_word {source : String} {token : Token} (h : token ∈ wordsOf source) :
    Lexical (.kind token.kind) token.lexeme.toList := by
  have mem : .token token ∈ itemsOf source := by
    obtain ⟨item, hitem, htoken⟩ := List.mem_filterMap.mp ((List.takeWhile_sublist _).mem h)
    cases item with
    | issue line cause => nomatch htoken
    | token t => exact Option.some.inj htoken ▸ hitem
  have notEnd : token.kind ≠ .eof := by
    simpa using List.all_eq_true.mp List.all_takeWhile token h
  rw [itemsOf_pieces, List.mem_append, List.mem_singleton] at mem
  rcases mem with hpiece | hend
  · obtain ⟨p, hp, hitem⟩ := List.mem_filterMap.mp hpiece
    have cut := (cut_of_mem hp).cut
    obtain ⟨before, text, after, content⟩ := p
    cases content with
    | kind kind =>
      obtain rfl := Item.token.inj (Option.some.inj hitem)
      cases cut with
      | lexeme hlexical => exact hlexical
    | _ => nomatch hitem
  · injection hend with hend
    exact absurd (congrArg Token.kind hend) notEnd

/-- The tokens of a source do not depend on the space between them. Their texts, put behind each other with
a separator between any two, and with or without one in front and behind, are the same tokens, and nothing
is wrong with the characters of that text, whatever was wrong with those of the source. -/
theorem spacing_irrelevant {source before body after : String}
    (hbefore : before = "" ∨ Separator before)
    (hbody : Spaced ((wordsOf source).map (·.lexeme)) body)
    (hafter : after = "" ∨ Separator after) :
    tokensOf source = wordsOf source ++ [.eof (linesOf source)] ∧
      lexicalIssuesOf (before ++ body ++ after) = [] ∧
      (tokensOf (before ++ body ++ after)).map Token.spelled =
        (wordsOf source).map Token.spelled ++ [(.eof, "")] := by
  have front : Filler before.toList := by
    rcases hbefore with rfl | hbefore
    · exact .nil
    · exact hbefore.filler
  have back : Filler after.toList ∧ ∀ b ∈ after.toList.head?, isBlank b := by
    rcases hafter with rfl | hafter
    · exact ⟨.nil, nofun⟩
    · exact ⟨hafter.filler, by simpa using hafter.head []⟩
  obtain ⟨placed, line, hwords, hspelled⟩ := wordsFrom_spaced (fun _ => lexical_of_word) hbody
    (1 + before.toList.count '\n') back.2
  have all : wordsFrom 1 (before ++ body ++ after).toList = placed.map Item.token := by
    have last := wordsFrom_filler back.1 line []
    rw [List.append_nil, wordsFrom_nil] at last
    rw [String.toList_append, String.toList_append, List.append_assoc, wordsFrom_filler front, hwords,
      last, List.append_nil]
  refine ⟨tokensOf_eq_wordsOf source, ?_, ?_⟩
  · rw [lexicalIssuesOf_eq, all, List.filterMap_map]
    exact List.filterMap_eq_nil_iff.mpr fun _ _ => rfl
  · have tokens : placed.filterMap (Item.token? ∘ Item.token) = placed := List.filterMap_some
    rw [tokensOf_eq_wordsOf, wordsOf_eq, all, List.filterMap_map, tokens, List.map_append, hspelled]
    rfl

/-- Two operators that touch are the same two with a comment between them. -/
theorem spacing_irrelevant_operators :
    Spaced ((wordsOf "a!==b\"").map (·.lexeme)) "a !=\t//=\n=\nb" ∧ Separator "\r" ∧
      (tokensOf ("" ++ "a !=\t//=\n=\nb" ++ "\r")).map Token.spelled =
        [(.identifier, "a"), (.symbol .bangEqual, "!="), (.symbol .equal, "="), (.identifier, "b"),
          (.eof, "")] := by
  have words : wordsOf "a!==b\"" = [⟨.identifier, "a", 1⟩, ⟨.symbol .bangEqual, "!=", 1⟩,
      ⟨.symbol .equal, "=", 1⟩, ⟨.identifier, "b", 1⟩] := by
    rw [wordsOf, tokensOf, itemsOf_eq_itemsWithin]
    rfl
  have blank (b : Char) (hb : isBlank b) : Separator (String.ofList [b]) :=
    ⟨b, [], String.toList_ofList, hb, .nil⟩
  have comment : Separator "\t//=\n" := by
    have filler : Filler ('/' :: '/' :: ['='] ++ '\n' :: []) := .comment (by decide) .nil
    exact ⟨'\t', _, rfl, rfl, filler⟩
  have spaced : Spaced ((wordsOf "a!==b\"").map (·.lexeme)) "a !=\t//=\n=\nb" := by
    rw [words]
    show Spaced _ ("a" ++ " " ++ ("!=" ++ "\t//=\n" ++ ("=" ++ "\n" ++ "b")))
    exact .cons (blank ' ' rfl) (.cons comment (.cons (blank '\n' rfl) (.single "b")))
  have same := (spacing_irrelevant (.inl rfl) spaced (.inr (blank '\r' rfl))).2.2
  exact ⟨spaced, blank '\r' rfl, same.trans (by rw [words]; rfl)⟩

end Lox
